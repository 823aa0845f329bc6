import Pintos.Base.Run
import Pintos.Threads.HeapInvariant

/-!
# The calls of the kernel heap

Each call keeps the invariant of the heap and the blocks that it is not given: `malloc` returns a
block that was not allocated, `free` gives up the one block, also where the page of an arena goes
back to the page allocator.
Source `threads/malloc.c:89–264`.
-/

namespace Pintos.Threads.Malloc

open Pintos.Base

variable {e : Desc} {dst i q size w x z : Nat} {mem : Nat → UInt8} {answer : Option Nat}

variable {h h' : Heap} {a n : Nat} {d : Desc}

/-! ## The loops over the blocks of an arena -/

private theorem arenaToBlock_eq (harena : h.arena a = some ⟨ARENA_MAGIC, some d, n⟩) (ha : 0 < a)
    (hi : i < d.blocksPerArena) : h.arenaToBlock a i = some (blockAt a d i) := by
  unfold Heap.arenaToBlock
  rw [harena]
  dsimp only
  rw [if_pos ⟨by omega, rfl, hi⟩]
  rfl

private theorem setFreeList_setFreeList (h : Heap) (d : Desc) (l l' : List Nat) :
    (h.setFreeList d l).setFreeList d l' = h.setFreeList d l' := by
  simp [Heap.setFreeList]

@[simp] theorem freeList_setFreeList (h : Heap) (d : Desc) (l : List Nat) :
    (h.setFreeList d l).freeList d = l := by
  simp [Heap.setFreeList]

private theorem setFreeList_self (h : Heap) (d : Desc) : h.setFreeList d (h.freeList d) = h := by
  simp [Heap.setFreeList]

private theorem addBlocks_eq (harena : h.arena a = some ⟨ARENA_MAGIC, some d, n⟩) (ha : 0 < a) :
    h.addBlocks d a = some (h.setFreeList d (h.freeList d ++ blocksOf a d)) := by
  have hloop : ∀ k, k ≤ d.blocksPerArena → (List.range k).foldlM (fun h i =>
      (h.arenaToBlock a i).map fun b => h.setFreeList d (h.freeList d ++ [b])) h =
        some (h.setFreeList d (h.freeList d ++ (List.range k).map (blockAt a d))) := by
    intro k
    induction k with
    | zero =>
      intro _
      simp [setFreeList_self]
    | succ k ih =>
      intro hk
      have hblock := arenaToBlock_eq
        (h := h.setFreeList d (h.freeList d ++ (List.range k).map (blockAt a d))) harena ha hk
      rw [List.range_succ, List.foldlM_append, ih (by omega)]
      simp [hblock, setFreeList_setFreeList]
  exact hloop _ (Nat.le_refl _)

/-- The blocks of an arena that are all on the list are all removed. -/
theorem removeBlocks_eq (harena : h.arena a = some ⟨ARENA_MAGIC, some d, n⟩) (ha : 0 < a)
    (hd : d ∈ descs) (hnodup : (h.freeList d).Nodup) (hall : blocksOf a d ⊆ h.freeList d) :
    h.removeBlocks d a = some (h.setFreeList d ((h.freeList d).diff (blocksOf a d))) := by
  have hloop : ∀ k, k ≤ d.blocksPerArena → (List.range k).foldlM (fun h i =>
      (h.arenaToBlock a i).bind fun b => h.listRemove d b) h =
        some (h.setFreeList d ((h.freeList d).diff ((List.range k).map (blockAt a d)))) := by
    intro k
    induction k with
    | zero =>
      intro _
      simp [setFreeList_self]
    | succ k ih =>
      intro hk
      let l := (h.freeList d).diff ((List.range k).map (blockAt a d))
      have hblock := arenaToBlock_eq (h := h.setFreeList d l) harena ha hk
      -- the block is still there, since only blocks with smaller indices have gone
      have hmem : blockAt a d k ∈ l := by
        apply hnodup.mem_sdiff_iff.mpr
        constructor
        · exact hall (mem_blocksOf.mpr ⟨k, hk, rfl⟩)
        · intro hk'
          obtain ⟨j, hj, heq⟩ := List.mem_map.mp hk'
          rw [blockAt_inj hd heq, List.mem_range] at hj
          exact Nat.lt_irrefl _ hj
      rw [List.range_succ, List.foldlM_append, ih (by omega)]
      simp only [List.map_append, List.map_cons, List.map_nil, List.diff_append, List.diff_cons,
        List.diff_nil]
      change ((h.setFreeList d l).arenaToBlock a k).bind _ >>= _ = _
      rw [hblock]
      simp [Heap.listRemove, hmem, setFreeList_setFreeList, l]
  exact hloop _ (Nat.le_refl _)

/-! ## Keeping the invariant -/

@[simp] theorem arena_setArena (h : Heap) (a : Nat) (header : Arena) :
    (h.setArena a header).arena = Function.update h.arena a (some header) := rfl

@[simp] theorem freeList_setArena (h : Heap) (a : Nat) (header : Arena) :
    (h.setArena a header).freeList = h.freeList := rfl

@[simp] theorem arena_setFreeList (h : Heap) (d : Desc) (l : List Nat) :
    (h.setFreeList d l).arena = h.arena := rfl

private theorem freeList_setFreeList_of_ne (h : Heap) (l : List Nat) {d : Desc} (hne : e ≠ d) :
    (h.setFreeList d l).freeList e = h.freeList e := by
  simp [Heap.setFreeList, hne]

/-- A header that names the same descriptor leaves all arenas with theirs. -/
theorem serves_setArena (harena : h.Serves a d) (l : List Nat) (m x : Nat) (e : Desc) :
    ((h.setFreeList d l).setArena a ⟨ARENA_MAGIC, some d, m⟩).Serves x e ↔ h.Serves x e := by
  by_cases hxa : x = a
  · subst hxa
    have hnew : ((h.setFreeList d l).setArena x ⟨ARENA_MAGIC, some d, m⟩).Serves x d :=
      ⟨m, by simp⟩
    constructor
    · intro he
      rw [← hnew.unique he]
      exact harena
    · intro he
      rw [← harena.unique he]
      exact hnew
  · simp [Heap.Serves, hxa]

/-- A new free list for the descriptor of an arena, with the count that belongs to it. -/
theorem HeapOk.relist (ok : HeapOk h) (harena : h.arena a = some ⟨ARENA_MAGIC, some d, n⟩)
    {l : List Nat} {m : Nat} (hlisted : ∀ b ∈ l, ∃ a, h.Serves a d ∧ b ∈ blocksOf a d)
    (hnodup : l.Nodup) (hself : l.countP (pageOf · = a) = m)
    (hother : ∀ x, x ≠ a → l.countP (pageOf · = x) = (h.freeList d).countP (pageOf · = x)) :
    HeapOk ((h.setFreeList d l).setArena a ⟨ARENA_MAGIC, some d, m⟩) := by
  have hserves := serves_setArena ⟨n, harena⟩ l m
  have hpages : PagesOk ((h.setFreeList d l).setArena a ⟨ARENA_MAGIC, some d, m⟩) :=
    @PagesOk.setHeader h _ ok.toPagesOk a _ ⟨ARENA_MAGIC, some d, m⟩ harena rfl rfl rfl rfl
  refine { hpages with
    desc := fun x e he => ok.desc x e ((hserves x e).mp he)
    listed := fun e b hb => ?_
    nodup := fun e => ?_
    counted := fun x e k hx => ?_ }
  · by_cases hed : e = d
    · subst hed
      rw [freeList_setArena, freeList_setFreeList] at hb
      obtain ⟨x, hx, hmem⟩ := hlisted b hb
      exact ⟨x, (hserves x e).mpr hx, hmem⟩
    · rw [freeList_setArena, freeList_setFreeList_of_ne h l hed] at hb
      obtain ⟨x, hx, hmem⟩ := ok.listed e b hb
      exact ⟨x, (hserves x e).mpr hx, hmem⟩
  · by_cases hed : e = d
    · subst hed
      rw [freeList_setArena, freeList_setFreeList]
      exact hnodup
    · rw [freeList_setArena, freeList_setFreeList_of_ne h l hed]
      exact ok.nodup e
  · rw [freeList_setArena]
    rw [arena_setArena, arena_setFreeList] at hx
    by_cases hxa : x = a
    · subst hxa
      rw [Function.update_self] at hx
      cases hx
      rw [freeList_setFreeList]
      exact hself
    · rw [Function.update_of_ne hxa] at hx
      by_cases hed : e = d
      · subst hed
        rw [freeList_setFreeList, hother x hxa]
        exact ok.counted x e k hx
      · rw [freeList_setFreeList_of_ne h l hed]
        exact ok.counted x e k hx

/-- The heap with a new arena, whose blocks are the free list of the descriptor. -/
def Heap.withArena (h : Heap) (d : Desc) (a : Nat) : Heap :=
  ({ h with used := (a, 1) :: h.used }.setArena a
    ⟨ARENA_MAGIC, some d, d.blocksPerArena⟩).setFreeList d (blocksOf a d)

private theorem arena_withArena (h : Heap) (d : Desc) (a : Nat) : (h.withArena d a).arena =
    Function.update h.arena a (some ⟨ARENA_MAGIC, some d, d.blocksPerArena⟩) := rfl

private theorem freeList_withArena (h : Heap) (d : Desc) (a : Nat) : (h.withArena d a).freeList =
    Function.update h.freeList d (blocksOf a d) := rfl

private theorem serves_withArena (hnone : h.arena a = none) (hs : h.Serves x e) :
    (h.withArena d a).Serves x e := by
  obtain ⟨k, hk⟩ := hs
  have hxa : x ≠ a := by
    rintro rfl
    rw [hnone] at hk
    cases hk
  refine ⟨k, ?_⟩
  rw [arena_withArena, Function.update_of_ne hxa]
  exact hk

private theorem HeapOk.addSmall (ok : HeapOk h) (hd : d ∈ descs) (hav : Available h 1 a)
    (hempty : h.freeList d = []) : HeapOk (h.withArena d a) := by
  have hnone : h.arena a = none := ok.arena_none Nat.one_pos hav
  have hpages : PagesOk (h.withArena d a) :=
    @PagesOk.add h _ ok.toPagesOk a ⟨ARENA_MAGIC, some d, d.blocksPerArena⟩ rfl Nat.one_pos hav
      rfl rfl
  refine { hpages with
    desc := fun x e he => ?_
    listed := fun e b hb => ?_
    nodup := fun e => ?_
    counted := fun x e k hx => ?_ }
  · obtain ⟨k, hk⟩ := he
    rw [arena_withArena] at hk
    by_cases hxa : x = a
    · subst hxa
      rw [Function.update_self] at hk
      cases hk
      exact hd
    · rw [Function.update_of_ne hxa] at hk
      exact ok.desc x e ⟨k, hk⟩
  · rw [freeList_withArena] at hb
    by_cases hed : e = d
    · subst hed
      rw [Function.update_self] at hb
      refine ⟨a, ⟨e.blocksPerArena, ?_⟩, hb⟩
      rw [arena_withArena, Function.update_self]
    · rw [Function.update_of_ne hed] at hb
      obtain ⟨x, hx, hmem⟩ := ok.listed e b hb
      exact ⟨x, serves_withArena hnone hx, hmem⟩
  · rw [freeList_withArena]
    by_cases hed : e = d
    · subst hed
      rw [Function.update_self]
      exact nodup_blocksOf hd
    · rw [Function.update_of_ne hed]
      exact ok.nodup e
  · rw [arena_withArena] at hx
    rw [freeList_withArena]
    by_cases hxa : x = a
    · subst hxa
      rw [Function.update_self] at hx
      cases hx
      rw [Function.update_self, List.countP_eq_length.mpr, length_blocksOf]
      intro b hb
      obtain ⟨i, hi, rfl⟩ := mem_blocksOf.mp hb
      simpa using pageOf_blockAt hav.1 hd hi
    · rw [Function.update_of_ne hxa] at hx
      by_cases hed : e = d
      · subst hed
        -- the other arenas of the descriptor have no free block
        have hcount := ok.counted x e k hx
        rw [hempty, List.countP_nil] at hcount
        rw [Function.update_self, ← hcount, List.countP_eq_zero]
        intro b hb
        obtain ⟨i, hi, rfl⟩ := mem_blocksOf.mp hb
        simpa [pageOf_blockAt hav.1 hd hi] using Ne.symm hxa
      · rw [Function.update_of_ne hed]
        exact ok.counted x e k hx

private theorem HeapOk.addBig (ok : HeapOk h) (hn : 0 < n) (hav : Available h n a) :
    HeapOk ({ h with used := (a, n) :: h.used }.setArena a ⟨ARENA_MAGIC, none, n⟩) := by
  have hnone : h.arena a = none := ok.arena_none hn hav
  have hserves : ∀ x e, ({ h with used := (a, n) :: h.used }.setArena a
      ⟨ARENA_MAGIC, none, n⟩).Serves x e ↔ h.Serves x e := by
    intro x e
    by_cases hxa : x = a
    · subst hxa
      simp [Heap.Serves, hnone]
    · simp [Heap.Serves, hxa]
  have hpages : PagesOk ({ h with used := (a, n) :: h.used }.setArena a
      ⟨ARENA_MAGIC, none, n⟩) :=
    @PagesOk.add h _ ok.toPagesOk a ⟨ARENA_MAGIC, none, n⟩ rfl hn hav rfl rfl
  exact { hpages with
    desc := fun x e he => ok.desc x e ((hserves x e).mp he)
    listed := by
      intro e b hb
      obtain ⟨x, hx, hmem⟩ := ok.listed e b hb
      exact ⟨x, (hserves x e).mpr hx, hmem⟩
    nodup := ok.nodup
    counted := by
      intro x e k hx
      rw [arena_setArena] at hx
      by_cases hxa : x = a
      · subst hxa
        rw [Function.update_self] at hx
        cases hx
      · rw [Function.update_of_ne hxa] at hx
        exact ok.counted x e k hx }

/-! ## `malloc` -/

/-- What a call that allocates the block `p` of `z` bytes does. -/
structure Granted (h h' : Heap) (p z : Nat) : Prop where
  ok : HeapOk h'
  mem : h'.mem = h.mem
  kept : ∀ q w, Allocated h q w → Allocated h' q w
  block : Allocated h' p z
  fresh : ∀ w, ¬ Allocated h p w

private theorem takeBlock_granted (ok : HeapOk h) {b : Nat} {rest : List Nat}
    (hlist : h.freeList d = b :: rest) :
    ∃ h', h.takeBlock d = some (b, h') ∧ Granted h h' b d.blockSize := by
  have hb : b ∈ h.freeList d := by
    rw [hlist]
    exact List.mem_cons_self
  obtain ⟨a, ⟨n, harena⟩, hmem⟩ := ok.listed d b hb
  have hpage : pageOf b = a := ok.pageOf_block ⟨n, harena⟩ hmem
  obtain ⟨i, hi, rfl⟩ := mem_blocksOf.mp hmem
  have hnodup := ok.nodup d
  rw [hlist, List.nodup_cons] at hnodup
  have hcount := ok.counted a d n harena
  rw [hlist, List.countP_cons_of_pos (by simpa using hpage)] at hcount
  have hok : HeapOk ((h.setFreeList d rest).setArena a ⟨ARENA_MAGIC, some d, n - 1⟩) := by
    refine ok.relist harena ?_ hnodup.2 (by omega) ?_
    · intro c hc
      apply ok.listed d c
      rw [hlist]
      exact List.mem_cons_of_mem _ hc
    · intro x hx
      rw [hlist, List.countP_cons_of_neg (by simpa [hpage] using Ne.symm hx)]
  have hserves := serves_setArena ⟨n, harena⟩ rest (n - 1)
  have htake : h.takeBlock d = some (blockAt a d i,
      (h.setFreeList d rest).setArena a ⟨ARENA_MAGIC, some d, n - 1⟩) := by
    have harena' : (h.setFreeList d rest).blockToArena (blockAt a d i) =
        h.blockToArena (blockAt a d i) := rfl
    rw [Heap.takeBlock, hlist]
    dsimp only
    rw [harena', ok.blockToArena_small harena hi]
    rfl
  refine ⟨_, htake, hok, rfl, ?_, ?_, fun w => ok.not_allocated hb⟩
  · intro q w hq
    cases hq with
    | @small x j e hs hj hfree =>
      refine .small ((hserves x e).mpr hs) hj ?_
      rw [freeList_setArena]
      by_cases hed : e = d
      · subst hed
        rw [hlist, List.mem_cons, not_or] at hfree
        rw [freeList_setFreeList]
        exact hfree.2
      · rw [freeList_setFreeList_of_ne h rest hed]
        exact hfree
    | @big x m hx =>
      refine .big ?_
      have hxa : x ≠ a := by
        rintro rfl
        rw [hx] at harena
        cases harena
      simpa [hxa] using hx
  · refine .small ((hserves a d).mpr ⟨n, harena⟩) hi ?_
    rw [freeList_setArena, freeList_setFreeList]
    exact hnodup.1

/-- The pages that a request needs from the page allocator. -/
def pagesFor (size : Nat) : Nat :=
  match descs.find? fun d => size ≤ d.blockSize with
  | none => Lib.divRoundUp (addSize size ARENA_SIZE) PGSIZE
  | some _ => 1

/-- The bytes of the block that a request gets. -/
def usable (size : Nat) : Nat :=
  match descs.find? fun d => size ≤ d.blockSize with
  | none => PGSIZE * Lib.divRoundUp (addSize size ARENA_SIZE) PGSIZE - ARENA_SIZE
  | some d => d.blockSize

/-- The page allocator answers with no pages or with available ones. -/
def Answers (h : Heap) (size : Nat) : Option Nat → Prop
  | none => True
  | some a => Available h (pagesFor size) a

instance (h : Heap) (size : Nat) (answer : Option Nat) : Decidable (Answers h size answer) := by
  cases answer <;> unfold Answers <;> infer_instance

private theorem bigBlock_granted (ok : HeapOk h) {a : Nat}
    (hn : 0 < Lib.divRoundUp (addSize size ARENA_SIZE) PGSIZE)
    (hav : Available h (Lib.divRoundUp (addSize size ARENA_SIZE) PGSIZE) a) :
    ∃ h', h.bigBlock size (some a) = (some (a + ARENA_SIZE), h') ∧
      Granted h h' (a + ARENA_SIZE)
        (PGSIZE * Lib.divRoundUp (addSize size ARENA_SIZE) PGSIZE - ARENA_SIZE) := by
  generalize hcnt : Lib.divRoundUp (addSize size ARENA_SIZE) PGSIZE = n at hn hav
  have hnone : h.arena a = none := ok.arena_none hn hav
  refine ⟨{ h with used := (a, n) :: h.used }.setArena a ⟨ARENA_MAGIC, none, n⟩, ?_,
    ok.addBig hn hav, rfl, ?_, ?_, ?_⟩
  · simp [Heap.bigBlock, Heap.pallocGetMultiple, hcnt, Nat.pos_iff_ne_zero.mp hn]
  · intro q w hq
    cases hq with
    | @small x j e hs hj hfree =>
      refine .small ?_ hj hfree
      obtain ⟨k, hk⟩ := hs
      have hxa : x ≠ a := by
        rintro rfl
        rw [hnone] at hk
        cases hk
      exact ⟨k, by simpa [hxa] using hk⟩
    | @big x m hx =>
      refine .big ?_
      have hxa : x ≠ a := by
        rintro rfl
        rw [hnone] at hx
        cases hx
      simpa [hxa] using hx
  · exact .big (by simp)
  · intro w hw
    obtain ⟨header, harena, -⟩ := hw.inside ok
    have hpage : pageOf (a + ARENA_SIZE) = a := by
      have halign := hav.1
      unfold pageOf ARENA_SIZE PGSIZE at *
      omega
    rw [hpage, hnone] at harena
    cases harena

/-- Blocks stay allocated when an arena is added for a descriptor without free blocks. -/
theorem Allocated.withArena (hq : Allocated h q w) (ok : HeapOk h)
    (hav : Available h 1 a) : Allocated (h.withArena d a) q w := by
  have hnone : h.arena a = none := ok.arena_none Nat.one_pos hav
  cases hq with
  | @small x j e hs hj hfree =>
    refine .small (serves_withArena hnone hs) hj ?_
    rw [freeList_withArena]
    by_cases hed : e = d
    · subst hed
      rw [Function.update_self]
      intro hmem
      obtain ⟨i, hi, heq⟩ := mem_blocksOf.mp hmem
      have he := ok.desc x e hs
      have hpage := pageOf_blockAt (ok.serves_aligned hs).1 he hj
      rw [← heq, pageOf_blockAt hav.1 he hi] at hpage
      subst hpage
      obtain ⟨k, hk⟩ := hs
      rw [hnone] at hk
      cases hk
    · rw [Function.update_of_ne hed]
      exact hfree
  | @big x m hx =>
    refine .big ?_
    have hxa : x ≠ a := by
      rintro rfl
      rw [hnone] at hx
      cases hx
    rw [arena_withArena, Function.update_of_ne hxa]
    exact hx

private theorem newArena_eq (hempty : h.freeList d = []) (ha : 0 < a) :
    h.newArena d (some a) = some (true, h.withArena d a) := by
  have hadd := @addBlocks_eq ({ h with used := (a, 1) :: h.used }.setArena a
    ⟨ARENA_MAGIC, some d, d.blocksPerArena⟩) a d.blocksPerArena d (by simp) ha
  rw [freeList_setArena] at hadd
  dsimp only at hadd
  rw [hempty, List.nil_append] at hadd
  simp only [Heap.newArena, Heap.pallocGetMultiple, Option.map_some]
  rw [if_neg Nat.one_ne_zero]
  dsimp only
  rw [hadd]
  rfl

/-- A request that the descriptor's list and the page allocator cannot meet, or a block. -/
theorem smallBlock_spec (ok : HeapOk h) (hd : d ∈ descs)
    (hans : ∀ a, answer = some a → Available h 1 a) :
    h.smallBlock d answer = some (none, h) ∨
      ∃ b h', h.smallBlock d answer = some (some b, h') ∧ Granted h h' b d.blockSize := by
  unfold Heap.smallBlock
  by_cases hempty : h.freeList d = []
  · rw [if_pos hempty]
    cases answer with
    | none =>
      left
      rfl
    | some a =>
      right
      have hav := hans a rfl
      have hpos : 0 < a := Nat.lt_of_lt_of_le (by decide) hav.2.1
      rw [newArena_eq hempty hpos]
      dsimp only
      have hok := ok.addSmall hd hav hempty
      obtain ⟨b, rest, hlist⟩ : ∃ b rest, (h.withArena d a).freeList d = b :: rest := by
        rw [freeList_withArena, Function.update_self]
        apply List.exists_cons_of_length_pos
        rw [length_blocksOf]
        exact (descs_fit d hd).2.2.1
      obtain ⟨h', htake, hgrant⟩ := takeBlock_granted hok hlist
      refine ⟨b, h', by rw [htake]; rfl, hgrant.ok, hgrant.mem, ?_, hgrant.block, ?_⟩
      · exact fun q w hq => hgrant.kept q w (hq.withArena ok hav)
      · exact fun w hw => hgrant.fresh w (hw.withArena ok hav)
  · rw [if_neg hempty]
    dsimp only
    right
    obtain ⟨b, rest, hlist⟩ := List.exists_cons_of_ne_nil hempty
    obtain ⟨h', htake, hgrant⟩ := takeBlock_granted ok hlist
    exact ⟨b, h', by rw [htake]; rfl, hgrant⟩

/-- `malloc` fails and changes nothing, or grants a block of `usable size` bytes. -/
theorem malloc_spec (ok : HeapOk h)
    (hans : Answers h size answer) :
    h.malloc size answer = some (none, h) ∨
      ∃ p h', h.malloc size answer = some (some p, h') ∧ Granted h h' p (usable size) := by
  unfold Heap.malloc
  by_cases hzero : size = 0
  · rw [if_pos hzero]
    exact Or.inl rfl
  · rw [if_neg hzero]
    unfold usable
    unfold Answers pagesFor at hans
    cases hfind : descs.find? fun d => size ≤ d.blockSize with
    | none =>
      dsimp only
      by_cases hcnt : Lib.divRoundUp (addSize size ARENA_SIZE) PGSIZE = 0
      · left
        simp [Heap.bigBlock, Heap.pallocGetMultiple, hcnt]
      · cases answer with
        | none =>
          left
          simp [Heap.bigBlock, Heap.pallocGetMultiple]
        | some a =>
          right
          rw [hfind] at hans
          obtain ⟨h', heq, hgrant⟩ := bigBlock_granted ok (Nat.pos_iff_ne_zero.mpr hcnt) hans
          exact ⟨a + ARENA_SIZE, h', by rw [heq], hgrant⟩
    | some d =>
      dsimp only
      apply smallBlock_spec ok (List.mem_of_find?_eq_some hfind)
      rintro a rfl
      rw [hfind] at hans
      exact hans

/-! ## `free` -/

/-- What a call that gives up the block `p` does. -/
structure Freed (h h' : Heap) (p : Nat) : Prop where
  ok : HeapOk h'
  kept : ∀ q w, q ≠ p → Allocated h q w → Allocated h' q w
  mem : ∀ q w, q ≠ p → Allocated h q w → ∀ x, q ≤ x → x < q + w → h'.mem x = h.mem x

private theorem memset_outside {value : UInt8}
    (hx : x < dst ∨ dst + size ≤ x) : memset mem dst value size x = mem x := by
  unfold memset
  rw [if_neg (by omega)]

theorem HeapOk.setMem (ok : HeapOk h) (mem : Nat → UInt8) : HeapOk { h with mem := mem } :=
  { ok with }

theorem Allocated.setMem {p : Nat} (hp : Allocated h p z) (mem : Nat → UInt8) :
    Allocated { h with mem := mem } p z := by
  cases hp with
  | small hs hi hfree => exact .small hs hi hfree
  | big ha => exact .big ha

section Counting

private theorem HeapOk.freeOf_subset (ok : HeapOk h) (a : Nat) (d : Desc) :
    (h.freeList d).filter (pageOf · = a) ⊆ blocksOf a d := by
  intro b hb
  rw [List.mem_filter, decide_eq_true_eq] at hb
  obtain ⟨x, hs, hmem⟩ := ok.listed d b hb.1
  rw [ok.pageOf_block hs hmem] at hb
  rw [← hb.2]
  exact hmem

variable (ok : HeapOk h) (harena : h.arena a = some ⟨ARENA_MAGIC, some d, n⟩)
include ok harena

private theorem freeCnt_le : n ≤ d.blocksPerArena := by
  have hsub := ((ok.nodup d).filter _).subperm (ok.freeOf_subset a d)
  have hlen := hsub.length_le
  rw [← List.countP_eq_length_filter, ok.counted a d n harena, length_blocksOf] at hlen
  exact hlen

/-- If an arena counts all its blocks as free, they are all on the list. -/
theorem blocksOf_subset (hn : n = d.blocksPerArena) : blocksOf a d ⊆ h.freeList d := by
  have hsub := ((ok.nodup d).filter _).subperm (ok.freeOf_subset a d)
  have hperm := hsub.perm_of_length_le (by
    rw [← List.countP_eq_length_filter, ok.counted a d n harena, length_blocksOf, hn])
  intro b hb
  exact (List.mem_filter.mp (hperm.mem_iff.mpr hb)).1

end Counting

/-- The heap without an arena of blocks, whose page goes back to the page allocator. -/
def Heap.withoutArena (h : Heap) (d : Desc) (a : Nat) : Heap :=
  { h.setFreeList d ((h.freeList d).diff (blocksOf a d)) with
    used := h.used.erase (a, 1)
    arena := Function.update h.arena a none
    mem := memset h.mem a 0xcc (PGSIZE * 1) }

private theorem arena_withoutArena (h : Heap) (d : Desc) (a : Nat) :
    (h.withoutArena d a).arena = Function.update h.arena a none := rfl

private theorem freeList_withoutArena (h : Heap) (d : Desc) (a : Nat) :
    (h.withoutArena d a).freeList =
    Function.update h.freeList d ((h.freeList d).diff (blocksOf a d)) := rfl

private theorem serves_withoutArena (hxa : x ≠ a) (hs : h.Serves x e) :
    (h.withoutArena d a).Serves x e := by
  obtain ⟨k, hk⟩ := hs
  refine ⟨k, ?_⟩
  rw [arena_withoutArena, Function.update_of_ne hxa]
  exact hk

private theorem HeapOk.withoutArena (ok : HeapOk h) (hs : h.Serves a d) :
    HeapOk (h.withoutArena d a) := by
  have hpages : PagesOk (h.withoutArena d a) := @PagesOk.drop h _ ok.toPagesOk a 1 rfl rfl
  refine { hpages with
    desc := fun x e he => ?_
    listed := fun e b hb => ?_
    nodup := fun e => ?_
    counted := fun x e k hx => ?_ }
  · obtain ⟨k, hk⟩ := he
    rw [arena_withoutArena] at hk
    by_cases hxa : x = a
    · subst hxa
      rw [Function.update_self] at hk
      cases hk
    · rw [Function.update_of_ne hxa] at hk
      exact ok.desc x e ⟨k, hk⟩
  · rw [freeList_withoutArena] at hb
    by_cases hed : e = d
    · subst hed
      rw [Function.update_self, (ok.nodup e).mem_sdiff_iff] at hb
      obtain ⟨x, hx, hmem⟩ := ok.listed e b hb.1
      refine ⟨x, serves_withoutArena ?_ hx, hmem⟩
      rintro rfl
      exact hb.2 hmem
    · rw [Function.update_of_ne hed] at hb
      obtain ⟨x, hx, hmem⟩ := ok.listed e b hb
      refine ⟨x, serves_withoutArena ?_ hx, hmem⟩
      rintro rfl
      exact hed (hx.unique hs)
  · rw [freeList_withoutArena]
    by_cases hed : e = d
    · subst hed
      rw [Function.update_self]
      exact (ok.nodup e).diff
    · rw [Function.update_of_ne hed]
      exact ok.nodup e
  · rw [arena_withoutArena] at hx
    rw [freeList_withoutArena]
    by_cases hxa : x = a
    · subst hxa
      rw [Function.update_self] at hx
      cases hx
    · rw [Function.update_of_ne hxa] at hx
      by_cases hed : e = d
      · subst hed
        -- only blocks of the page of `a` have left the list
        rw [Function.update_self, (ok.nodup e).sdiff_eq_filter, List.countP_filter,
          ← ok.counted x e k hx]
        apply List.countP_congr
        intro b _
        simp only [Bool.and_eq_true, decide_eq_true_eq, and_iff_left_iff_imp]
        intro hpage hmem
        rw [ok.pageOf_block hs hmem] at hpage
        exact hxa hpage.symm
      · rw [Function.update_of_ne hed]
        exact ok.counted x e k hx

private theorem Allocated.withoutArena (hq : Allocated h q w) (ok : HeapOk h)
    (hpage : pageOf q ≠ a) : Allocated (h.withoutArena d a) q w := by
  cases hq with
  | @small x j e hs hj hfree =>
    rw [pageOf_blockAt (ok.serves_aligned hs).1 (ok.desc x e hs) hj] at hpage
    refine .small (serves_withoutArena hpage hs) hj ?_
    rw [freeList_withoutArena]
    by_cases hed : e = d
    · subst hed
      rw [Function.update_self]
      exact fun hmem => hfree (List.diff_subset _ _ hmem)
    · rw [Function.update_of_ne hed]
      exact hfree
  | @big x m hx =>
    rw [(HeapOk.pageOf_big ok.toPagesOk hx).1] at hpage
    refine .big ?_
    rw [arena_withoutArena, Function.update_of_ne hpage]
    exact hx

/-- No block is allocated in an arena whose blocks are all on the list. -/
theorem Allocated.pageOf_ne (hq : Allocated h q w) (ok : HeapOk h)
    (hs : h.Serves a d) (hall : blocksOf a d ⊆ h.freeList d) : pageOf q ≠ a := by
  cases hq with
  | @small x j e hx hj hfree =>
    rw [pageOf_blockAt (ok.serves_aligned hx).1 (ok.desc x e hx) hj]
    rintro rfl
    obtain rfl := hx.unique hs
    exact hfree (hall (mem_blocksOf.mpr ⟨j, hj, rfl⟩))
  | @big x m hx =>
    rw [(HeapOk.pageOf_big ok.toPagesOk hx).1]
    rintro rfl
    obtain ⟨k, hk⟩ := hs
    rw [hx] at hk
    cases hk

/-- The page of an arena whose blocks are all free is given back. -/
theorem removeBlocks_freed (ok : HeapOk h) (harena : h.arena a = some ⟨ARENA_MAGIC, some d, n⟩)
    (hn : n = d.blocksPerArena) :
    ∃ h', ((h.removeBlocks d a).bind fun h => h.pallocFreeMultiple a 1) = some h' ∧
      HeapOk h' ∧ (∀ q w, Allocated h q w → Allocated h' q w) ∧
      ∀ q w, Allocated h q w → ∀ x, q ≤ x → x < q + w → h'.mem x = h.mem x := by
  have hs : h.Serves a d := ⟨n, harena⟩
  have hpos := (ok.aligned harena).2.1
  have hall := blocksOf_subset ok harena hn
  have huse : (a, 1) ∈ h.used := ok.inUse a _ harena
  have hremove := removeBlocks_eq harena hpos (ok.desc a d hs) (ok.nodup d) hall
  refine ⟨h.withoutArena d a, ?_, ok.withoutArena hs, ?_, ?_⟩
  · rw [hremove, Option.bind_some, Heap.pallocFreeMultiple, if_neg Nat.one_ne_zero]
    exact if_pos huse
  · intro q w hq
    exact hq.withoutArena ok (hq.pageOf_ne ok hs hall)
  · intro q w hq x hlow hhigh
    obtain ⟨header, hheader, hin, hout⟩ := hq.inside ok
    have hapart := ok.arenas_apart hheader harena (hq.pageOf_ne ok hs hall)
    have hone : (⟨ARENA_MAGIC, some d, n⟩ : Arena).pages = 1 := rfl
    rw [hone] at hapart
    apply memset_outside
    unfold Apart at hapart
    unfold PGSIZE at *
    omega

private theorem freeSmall_freed (ok : HeapOk h)
    (harena : h.arena a = some ⟨ARENA_MAGIC, some d, n⟩) (hi : i < d.blocksPerArena) (hfree : blockAt a d i ∉ h.freeList d) :
    ∃ h', h.freeSmall d a ⟨ARENA_MAGIC, some d, n⟩ (blockAt a d i) = some h' ∧
      Freed h h' (blockAt a d i) := by
  have hs : h.Serves a d := ⟨n, harena⟩
  have hd := ok.desc a d hs
  have hpage := pageOf_blockAt (ok.serves_aligned hs).1 hd hi
  have hself : Allocated h (blockAt a d i) d.blockSize := .small hs hi hfree
  generalize hb : blockAt a d i = b at *
  let mem := memset h.mem b 0xcc d.blockSize
  let pushed : Heap := ({ h with mem := mem }.setFreeList d (b :: h.freeList d)).setArena a
    ⟨ARENA_MAGIC, some d, n + 1⟩
  have hok : HeapOk pushed := by
    refine (ok.setMem mem).relist harena ?_ (List.nodup_cons.mpr ⟨hfree, ok.nodup d⟩) ?_ ?_
    · intro c hc
      rcases List.mem_cons.mp hc with rfl | hc
      · exact ⟨a, hs, mem_blocksOf.mpr ⟨i, hi, hb⟩⟩
      · exact ok.listed d c hc
    · rw [List.countP_cons_of_pos (by simpa using hpage), ok.counted a d n harena]
    · intro x hx
      rw [List.countP_cons_of_neg (by simpa [hpage] using Ne.symm hx)]
  have hserves := serves_setArena (h := { h with mem := mem }) hs (b :: h.freeList d) (n + 1)
  have hkept : ∀ q w, q ≠ b → Allocated h q w → Allocated pushed q w := by
    intro q w hne hq
    cases hq with
    | @small x j e hx hj hnot =>
      refine .small ((hserves x e).mpr hx) hj ?_
      rw [freeList_setArena]
      by_cases hed : e = d
      · subst hed
        rw [freeList_setFreeList, List.mem_cons, not_or]
        exact ⟨hne, hnot⟩
      · rw [freeList_setFreeList_of_ne _ _ hed]
        exact hnot
    | @big x m hx =>
      refine .big ?_
      have hxa : x ≠ a := by
        rintro rfl
        rw [hx] at harena
        cases harena
      rw [arena_setArena, Function.update_of_ne hxa]
      exact hx
  have hmem : ∀ q w, q ≠ b → Allocated h q w → ∀ x, q ≤ x → x < q + w → pushed.mem x = h.mem x := by
    intro q w hne hq x hlow hhigh
    have hapart := hq.apart hself ok hne
    apply memset_outside
    unfold Apart at hapart
    omega
  have harena' : pushed.arena a = some ⟨ARENA_MAGIC, some d, n + 1⟩ := by simp [pushed]
  have hle := freeCnt_le hok harena'
  have hstep : h.freeSmall d a ⟨ARENA_MAGIC, some d, n⟩ b =
      if d.blocksPerArena ≤ n + 1 then
        if n + 1 = d.blocksPerArena then
          (pushed.removeBlocks d a).bind fun h => h.pallocFreeMultiple a 1
        else none
      else some pushed := rfl
  rw [hstep]
  by_cases hfull : d.blocksPerArena ≤ n + 1
  · rw [if_pos hfull, if_pos (by omega)]
    obtain ⟨h', heq, hok', hkept', hmem'⟩ := removeBlocks_freed hok harena' (by omega)
    refine ⟨h', heq, hok', ?_, ?_⟩
    · exact fun q w hne hq => hkept' q w (hkept q w hne hq)
    · intro q w hne hq x hlow hhigh
      rw [hmem' q w (hkept q w hne hq) x hlow hhigh, hmem q w hne hq x hlow hhigh]
  · rw [if_neg hfull]
    exact ⟨pushed, rfl, hok, hkept, hmem⟩

private theorem freeBig_freed (ok : HeapOk h) (harena : h.arena a = some ⟨ARENA_MAGIC, none, n⟩) :
    ∃ h', h.pallocFreeMultiple a n = some h' ∧ Freed h h' (a + ARENA_SIZE) := by
  have hn : n ≠ 0 := Nat.pos_iff_ne_zero.mp (ok.aligned harena).2.2.1
  have huse : (a, n) ∈ h.used := ok.inUse a _ harena
  let h' : Heap := { h with
    used := h.used.erase (a, n)
    arena := Function.update h.arena a none
    mem := memset h.mem a 0xcc (PGSIZE * n) }
  have hfreed : h.pallocFreeMultiple a n = some h' := by
    rw [Heap.pallocFreeMultiple, if_neg hn, if_pos huse]
  have hne : ∀ x e, h.Serves x e → x ≠ a := by
    rintro x e ⟨k, hk⟩ rfl
    rw [harena] at hk
    cases hk
  have hserves : ∀ x e, h.Serves x e → h'.Serves x e := by
    intro x e hs
    obtain ⟨k, hk⟩ := hs
    exact ⟨k, (Function.update_of_ne (hne x e ⟨k, hk⟩) _ _).trans hk⟩
  have hback : ∀ x header, h'.arena x = some header → x ≠ a ∧ h.arena x = some header := by
    intro x header hx
    by_cases hxa : x = a
    · subst hxa
      simp [h'] at hx
    · exact ⟨hxa, (Function.update_of_ne hxa _ _).symm.trans hx⟩
  have hpages : PagesOk h' := @PagesOk.drop h _ ok.toPagesOk a n rfl rfl
  refine ⟨h', hfreed, ?_, ?_, ?_⟩
  · refine { hpages with
      desc := fun x e he => ?_
      listed := fun e b hb => ?_
      nodup := ok.nodup
      counted := fun x e k hx => ok.counted x e k (hback x _ hx).2 }
    · obtain ⟨k, hk⟩ := he
      exact ok.desc x e ⟨k, (hback x _ hk).2⟩
    · obtain ⟨x, hx, hmem⟩ := ok.listed e b hb
      exact ⟨x, hserves x e hx, hmem⟩
  · intro q w hqp hq
    cases hq with
    | small hs hj hfree => exact .small (hserves _ _ hs) hj hfree
    | @big x m hx =>
      have hxa : x ≠ a := by
        rintro rfl
        exact hqp rfl
      exact .big ((Function.update_of_ne hxa _ _).trans hx)
  · intro q w hqp hq x hlow hhigh
    obtain ⟨header, hheader, hin, hout⟩ := hq.inside ok
    have hpage : pageOf q ≠ a := by
      rintro rfl
      cases hq with
      | @small y j e hs hj _ =>
        rw [pageOf_blockAt (ok.serves_aligned hs).1 (ok.desc y e hs) hj] at hne
        exact hne y e hs rfl
      | @big y m hy =>
        rw [(HeapOk.pageOf_big ok.toPagesOk hy).1] at hqp
        exact hqp rfl
    have hapart := ok.arenas_apart hheader harena hpage
    have hpagesn : (⟨ARENA_MAGIC, none, n⟩ : Arena).pages = n := rfl
    rw [hpagesn] at hapart
    apply memset_outside
    unfold Apart at hapart
    unfold PGSIZE at *
    omega

/-- `free` of an allocated block fails no assertion and gives up that block only. -/
theorem free_spec (ok : HeapOk h) {p : Nat} (hp : Allocated h p z) :
    ∃ h', h.free (some p) = some h' ∧ Freed h h' p := by
  cases hp with
  | @small a i d hs hi hfree =>
    obtain ⟨n, harena⟩ := hs
    obtain ⟨h', heq, hfreed⟩ := freeSmall_freed ok harena hi hfree
    refine ⟨h', ?_, hfreed⟩
    rw [Heap.free, ok.blockToArena_small harena hi, Option.bind_some]
    exact heq
  | @big a n harena =>
    obtain ⟨h', heq, hfreed⟩ := freeBig_freed ok harena
    refine ⟨h', ?_, hfreed⟩
    rw [Heap.free, ok.blockToArena_big harena, Option.bind_some]
    exact heq

/-! ## `calloc` and `realloc` -/

private theorem memset_inside {value : UInt8} (hi : i < size) :
    memset mem dst value size (dst + i) = value := by
  unfold memset
  rw [if_pos (by omega)]

private theorem memcpy_inside {src : Nat} (hi : i < size) :
    memcpy mem dst src size (dst + i) = mem (src + i) := by
  unfold memcpy
  rw [if_pos (by omega), Nat.add_sub_cancel_left]

/-- `calloc` fails and changes nothing, or grants a block whose first bytes are zero. -/
theorem calloc_spec (ok : HeapOk h) {y : Nat}
    (hans : Answers h (x * y % 2 ^ 32) answer) :
    h.calloc x y answer = some (none, h) ∨
      ∃ p h', h.calloc x y answer = some (some p, h') ∧ ¬ x * y % 2 ^ 32 < x ∧
        ¬ x * y % 2 ^ 32 < y ∧ HeapOk h' ∧ (∀ q w, Allocated h q w → Allocated h' q w) ∧
        Allocated h' p (usable (x * y % 2 ^ 32)) ∧ (∀ w, ¬ Allocated h p w) ∧
        ∀ i, i < x * y % 2 ^ 32 → h'.mem (p + i) = 0 := by
  unfold Heap.calloc
  dsimp only
  by_cases hover : x * y % 2 ^ 32 < x ∨ x * y % 2 ^ 32 < y
  · rw [if_pos hover]
    exact Or.inl rfl
  · rw [if_neg hover]
    rcases malloc_spec ok hans with heq | ⟨p, m, heq, hgrant⟩
    · left
      rw [heq]
      rfl
    · right
      refine ⟨p, { m with mem := memset m.mem p 0 (x * y % 2 ^ 32) }, ?_, ?_, ?_,
        hgrant.ok.setMem _, ?_, hgrant.block.setMem _, hgrant.fresh, ?_⟩
      · rw [heq]
        rfl
      · exact fun hx => hover (Or.inl hx)
      · exact fun hy => hover (Or.inr hy)
      · exact fun q w hq => (hgrant.kept q w hq).setMem _
      · exact fun i hi => memset_inside hi

/-- `realloc` of an allocated block: it fails and changes nothing, or the new block begins with
the bytes of the old one, which is given up. -/
theorem realloc_spec (ok : HeapOk h) {old : Nat}
    (hold : Allocated h old z) (hsize : size ≠ 0) (hans : Answers h size answer) :
    h.realloc (some old) size answer = some (none, h) ∨
      ∃ p h', h.realloc (some old) size answer = some (some p, h') ∧ HeapOk h' ∧ p ≠ old ∧
        (∀ q w, q ≠ old → Allocated h q w → Allocated h' q w) ∧
        Allocated h' p (usable size) ∧ (∀ w, ¬ Allocated h p w) ∧
        ∀ i, i < usable size → i < min size z → h'.mem (p + i) = h.mem (old + i) := by
  unfold Heap.realloc
  rw [if_neg hsize]
  rcases malloc_spec ok hans with heq | ⟨p, m, heq, hgrant⟩
  · left
    rw [heq]
    rfl
  · right
    have hne : p ≠ old := by
      rintro rfl
      exact hgrant.fresh z hold
    have hkept := hgrant.kept old z hold
    let mem := memcpy m.mem p old (min size z)
    obtain ⟨h', hfree, hfreed⟩ := free_spec (hgrant.ok.setMem mem) (hkept.setMem mem)
    refine ⟨p, h', ?_, hfreed.ok, hne, ?_, ?_, hgrant.fresh, ?_⟩
    · rw [heq, Option.bind_some]
      dsimp only
      rw [hkept.blockSize_eq hgrant.ok, Option.bind_some, hfree]
      rfl
    · exact fun q w hq hqw => hfreed.kept q w hq ((hgrant.kept q w hqw).setMem mem)
    · exact hfreed.kept p _ hne (hgrant.block.setMem mem)
    · intro i hi hmin
      rw [hfreed.mem p _ hne (hgrant.block.setMem mem) (p + i) (by omega) (by omega)]
      change memcpy m.mem p old (min size z) (p + i) = _
      rw [memcpy_inside hmin, hgrant.mem]

end Pintos.Threads.Malloc

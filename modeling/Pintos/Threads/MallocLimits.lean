import Pintos.Threads.HeapRuns
import Pintos.Threads.Palloc

/-!
# Requests near the limit of `size_t`

`malloc` adds the size of a header to the request, rounds up to pages and `calloc` multiplies, all
modulo `2 ^ 32`. A request within a header's size of the limit wraps to one page, and a product
that wraps may pass `calloc`'s test; everything else gets what it asked for or a null pointer. The
pages come from the kernel pool that `palloc_init` has made, whatever the size of the machine.
Source `threads/malloc.c:100–120, 156–175`, `threads/palloc.c:70–101`.
-/

namespace Pintos.Threads.Malloc

open Pintos.Base

variable {h h' : Heap} {a b p size : Nat} {answer : Option Nat} {pool : Palloc.Pool}

/-- The page allocator answers with no pages or with pages of its pool that are not in use. -/
def PoolAnswers (pool : Palloc.Pool) (h : Heap) (size : Nat) : Option Nat → Prop
  | none => True
  | some a => Available h (pagesFor size) a ∧ pool.base ≤ a ∧
    a + pagesFor size * PGSIZE ≤ pool.base + pool.usedMap.length * PGSIZE

private theorem PoolAnswers.answers (hans : PoolAnswers pool h size answer) :
    Answers h size answer := by
  cases answer with
  | none => trivial
  | some a => exact hans.1

/-- In every heap, whatever the page allocator answers: a block that `malloc` returns has as many
bytes as were asked for. -/
def MallocFits (pool : Palloc.Pool) (size : Nat) : Prop :=
  ∀ h answer p h', HeapOk h → PoolAnswers pool h size answer →
    h.malloc size answer = some (some p, h') → ∃ z, h'.blockSize p = some z ∧ size ≤ z

/-- The same for `calloc`, whose bytes are zero. -/
def CallocFits (pool : Palloc.Pool) (a b : Nat) : Prop :=
  ∀ h answer p h', HeapOk h → PoolAnswers pool h (a * b % 2 ^ 32) answer →
    h.calloc a b answer = some (some p, h') →
      a * b < 2 ^ 32 ∧ ∃ z, h'.blockSize p = some z ∧ a * b ≤ z ∧ ∀ i, i < a * b → h'.mem (p + i) = 0

/-- The request leaves room for a header, or it asks for more pages than the pool has. -/
def MallocSafe (pages size : Nat) : Prop := size ≤ 2 ^ 32 - ARENA_SIZE ∨ pages < pagesFor size

/-- The product leaves room for a header, or it wraps to a number that is seen to be too small or
that asks for no pages or for more than the pool has. -/
def CallocSafe (pages a b : Nat) : Prop :=
  a * b ≤ 2 ^ 32 - ARENA_SIZE ∨ a * b % 2 ^ 32 < a ∨ a * b % 2 ^ 32 < b ∨
    pagesFor (a * b % 2 ^ 32) = 0 ∨ pages < pagesFor (a * b % 2 ^ 32)

/-- What `palloc_init` makes sure of for the kernel pool. -/
structure KernelPool (pool : Palloc.Pool) : Prop where
  aligned : pool.base % PGSIZE = 0
  kernel : PHYS_BASE.toNat ≤ pool.base
  mapped : pool.base + pool.usedMap.length * PGSIZE ≤ 2 ^ 32

private theorem kernelPool_pallocInit {ram limit : Nat} {s : Palloc.State} (hram : 256 ≤ ram)
    (hram' : ram < 2 ^ 18) (hinit : Palloc.pallocInit ram limit = some s) :
    KernelPool s.kernelPool := by
  rcases @Palloc.pallocInit_spec ram limit hram hram' with ⟨-, hnone⟩ | ⟨-, s', hs, hlaid, hlow, -⟩
  · rw [hnone] at hinit
    cases hinit
  · obtain rfl := Option.some.inj (hs.symm.trans hinit)
    obtain ⟨first, mid, last, hkernel, -⟩ := hlaid
    have haligned := hkernel.aligned
    have hend := hkernel.end_eq
    have hlast := hkernel.last_lt
    have hbase : PHYS_BASE.toNat = 786432 * 4096 := by decide
    refine ⟨?_, ?_, ?_⟩ <;> (unfold PGSIZE at *; omega)

/-! ## Requests that no descriptor serves -/

private theorem find_desc_none (hsize : 1024 < size) :
    (descs.find? fun d => size ≤ d.blockSize) = none := by
  rw [List.find?_eq_none]
  intro d hd
  have hle := (descs_fit d hd).2.1
  simp only [decide_eq_true_eq]
  omega

private theorem pagesFor_big (hsize : 1024 < size) :
    pagesFor size = Lib.divRoundUp (addSize size ARENA_SIZE) PGSIZE := by
  rw [pagesFor, find_desc_none hsize]

private theorem malloc_big (hsize : 1024 < size) (h : Heap) (answer : Option Nat) :
    h.malloc size answer = some (h.bigBlock size answer) := by
  rw [Heap.malloc, if_neg (by omega), find_desc_none hsize]

/-- A big block is returned if the page allocator has the pages, and only then. -/
theorem bigBlock_some (hsize : 1024 < size)
    (heq : h.bigBlock size answer = (some p, h')) : pagesFor size ≠ 0 ∧ ∃ a, answer = some a := by
  rw [pagesFor_big hsize]
  unfold Heap.bigBlock Heap.pallocGetMultiple at heq
  by_cases hcnt : Lib.divRoundUp (addSize size ARENA_SIZE) PGSIZE = 0
  · simp [hcnt] at heq
  · cases answer with
    | none => simp [hcnt] at heq
    | some a => exact ⟨hcnt, a, rfl⟩

/-- A block that is granted has the size asked for if the header fits besides it. -/
theorem le_usable_of_room (hsize : size ≤ 2 ^ 32 - ARENA_SIZE)
    (hpages : pagesFor size ≠ 0) : size ≤ usable size := by
  unfold usable
  unfold pagesFor at hpages
  split
  · next hnone =>
    rw [hnone] at hpages
    dsimp only at hpages
    unfold Lib.divRoundUp addSize ARENA_SIZE PGSIZE at *
    omega
  · next d hd => simpa using List.find?_some hd

private theorem pagesFor_ne_zero
    (heq : h.malloc size answer = some (some p, h')) : pagesFor size ≠ 0 := by
  by_cases hbig : 1024 < size
  · rw [malloc_big hbig, Option.some.injEq] at heq
    exact (bigBlock_some hbig heq).1
  · have hfind : (descs.find? fun d => size ≤ d.blockSize) ≠ none := by
      intro hnone
      rw [List.find?_eq_none] at hnone
      exact hnone ⟨1024, 3⟩ (by decide) (by simpa using hbig)
    unfold pagesFor
    cases hd : descs.find? fun d => size ≤ d.blockSize with
    | none => exact absurd hd hfind
    | some d => simp

private theorem poolAnswers_start (hpool : KernelPool pool) (mem : Nat → UInt8)
    (hle : pagesFor size ≤ pool.usedMap.length) :
    PoolAnswers pool (mallocInit mem) size (some pool.base) := by
  have hmul := Nat.mul_le_mul_right PGSIZE hle
  have hmapped := hpool.mapped
  exact ⟨⟨hpool.aligned, hpool.kernel, by omega, fun u hu => by cases hu⟩, le_rfl, by omega⟩

private theorem malloc_start (hpool : KernelPool pool) (mem : Nat → UInt8) (hbig : 1024 < size)
    (hpages : pagesFor size ≠ 0) (hle : pagesFor size ≤ pool.usedMap.length) :
    ∃ p h', (mallocInit mem).malloc size (some pool.base) = some (some p, h') ∧ HeapOk h' ∧
      h'.blockSize p = some (usable size) := by
  have hans := (poolAnswers_start hpool mem hle).answers
  rcases malloc_spec (programOk_start mem).heap hans with heq | ⟨p, h', heq, hgrant⟩
  · rw [malloc_big hbig] at heq
    rw [pagesFor_big hbig] at hpages
    simp [Heap.bigBlock, Heap.pallocGetMultiple, hpages] at heq
  · exact ⟨p, h', heq, hgrant.ok, hgrant.block.blockSize_eq hgrant.ok⟩

/-! ## `malloc` -/

private theorem pagesFor_wrapped (hlow : 2 ^ 32 - ARENA_SIZE < size) (hhigh : size < 2 ^ 32) :
    pagesFor size = 1 ∧ usable size = 4084 := by
  have hbig : 1024 < size := by
    unfold ARENA_SIZE at hlow
    omega
  rw [pagesFor_big hbig, usable, find_desc_none hbig]
  dsimp only
  unfold Lib.divRoundUp addSize ARENA_SIZE PGSIZE at *
  omega

/-- The pages of a block that was granted are pages of the pool. -/
theorem pagesFor_le (hbig : 1024 < size) (hans : PoolAnswers pool h size answer)
    (heq : h.malloc size answer = some (some p, h')) :
    pagesFor size ≤ pool.usedMap.length := by
  rw [malloc_big hbig, Option.some.injEq] at heq
  obtain ⟨-, a, rfl⟩ := bigBlock_some hbig heq
  obtain ⟨-, hlow, hend⟩ := hans
  unfold PGSIZE at hend
  omega

private theorem mallocFits_iff (hpool : KernelPool pool) (hsize : size < 2 ^ 32) :
    MallocFits pool size ↔ MallocSafe pool.usedMap.length size := by
  constructor
  · intro hfits
    by_contra hsafe
    obtain ⟨hlow, hpool'⟩ := not_or.mp hsafe
    obtain ⟨hpages, husable⟩ := pagesFor_wrapped (Nat.lt_of_not_le hlow) hsize
    have hbig : 1024 < size := by
      unfold ARENA_SIZE at hlow
      omega
    have hle : pagesFor size ≤ pool.usedMap.length := Nat.le_of_not_lt hpool'
    obtain ⟨p, h', heq, -, hsz⟩ := malloc_start hpool (fun _ => 0) hbig (by omega) hle
    obtain ⟨z, hz, hle'⟩ :=
      hfits _ _ p h' (programOk_start _).heap (poolAnswers_start hpool _ hle) heq
    rw [hsz] at hz
    cases hz
    unfold ARENA_SIZE at hlow
    omega
  · intro hsafe h answer p h' ok hans heq
    have hroom : size ≤ 2 ^ 32 - ARENA_SIZE := by
      by_contra hlow
      have hbig : 1024 < size := by
        unfold ARENA_SIZE at hlow
        omega
      exact absurd (pagesFor_le hbig hans heq) (Nat.not_le.mpr (hsafe.resolve_left hlow))
    have hle := le_usable_of_room hroom (pagesFor_ne_zero heq)
    rcases malloc_spec ok hans.answers with hnone | ⟨p', m, heq', hgrant⟩
    · rw [hnone] at heq
      cases heq
    · rw [heq'] at heq
      cases heq
      exact ⟨_, hgrant.block.blockSize_eq hgrant.ok, hle⟩

/-! ## `calloc` -/

private theorem big_of_wraps (hover : 2 ^ 32 ≤ a * b) (ha : ¬ a * b % 2 ^ 32 < a)
    (hb : ¬ a * b % 2 ^ 32 < b) : 1024 < a * b % 2 ^ 32 := by
  by_contra hle
  have hmul : a * b ≤ 1024 * 1024 := Nat.mul_le_mul (by omega) (by omega)
  omega

private theorem calloc_some
    (heq : h.calloc a b answer = some (some p, h')) :
    ¬ a * b % 2 ^ 32 < a ∧ ¬ a * b % 2 ^ 32 < b ∧
      ∃ m, h.malloc (a * b % 2 ^ 32) answer = some (some p, m) := by
  unfold Heap.calloc at heq
  dsimp only at heq
  split at heq
  · cases heq
  · next hover =>
    rw [not_or] at hover
    refine ⟨hover.1, hover.2, ?_⟩
    cases hm : h.malloc (a * b % 2 ^ 32) answer with
    | none =>
      rw [hm] at heq
      cases heq
    | some r =>
      obtain ⟨q, m⟩ := r
      rw [hm] at heq
      cases q with
      | none => cases heq
      | some q =>
        cases heq
        exact ⟨m, rfl⟩

/-- A product that wraps unseen, with pages available, gets a block. -/
theorem calloc_start (hpool : KernelPool pool) (mem : Nat → UInt8) (ha : ¬ a * b % 2 ^ 32 < a)
    (hb : ¬ a * b % 2 ^ 32 < b) (hbig : 1024 < a * b % 2 ^ 32)
    (hpages : pagesFor (a * b % 2 ^ 32) ≠ 0)
    (hle : pagesFor (a * b % 2 ^ 32) ≤ pool.usedMap.length) :
    ∃ p h', (mallocInit mem).calloc a b (some pool.base) = some (some p, h') ∧
      h'.blockSize p = some (usable (a * b % 2 ^ 32)) := by
  obtain ⟨p, m, heq, -⟩ := malloc_start hpool mem hbig hpages hle
  rcases calloc_spec (programOk_start mem).heap (poolAnswers_start hpool mem hle).answers with
    hnone | ⟨q, h', hsome, -, -, hok, -, hblock, -⟩
  · unfold Heap.calloc at hnone
    dsimp only at hnone
    rw [if_neg (by omega)] at hnone
    have heq' : (start mem).heap.malloc (a * b % 2 ^ 32) (some pool.base) = some (some p, m) := heq
    rw [heq'] at hnone
    cases hnone
  · exact ⟨q, h', hsome, hblock.blockSize_eq hok⟩

/-- A product with no room for a header that passes the test asks for more than small blocks. -/
theorem big_of_passes (hroom : ¬ a * b ≤ 2 ^ 32 - ARENA_SIZE) (ha : ¬ a * b % 2 ^ 32 < a)
    (hb : ¬ a * b % 2 ^ 32 < b) : 1024 < a * b % 2 ^ 32 := by
  by_cases hover : 2 ^ 32 ≤ a * b
  · exact big_of_wraps hover ha hb
  · unfold ARENA_SIZE at hroom
    omega

private theorem callocFits_iff (hpool : KernelPool pool) :
    CallocFits pool a b ↔ CallocSafe pool.usedMap.length a b := by
  constructor
  · intro hfits
    by_contra hsafe
    simp only [CallocSafe, not_or] at hsafe
    obtain ⟨hroom, ha, hb, hpages, hlt⟩ := hsafe
    have hle := Nat.le_of_not_lt hlt
    obtain ⟨p, h', heq, hsz⟩ :=
      calloc_start hpool (fun _ => 0) ha hb (big_of_passes hroom ha hb) hpages hle
    obtain ⟨hover, z, hz, hzle, -⟩ :=
      hfits _ _ p h' (programOk_start _).heap (poolAnswers_start hpool _ hle) heq
    -- the product fits in a word but leaves no room for a header
    obtain ⟨-, husable⟩ := pagesFor_wrapped (Nat.lt_of_not_le hroom) hover
    rw [hsz, Nat.mod_eq_of_lt hover, husable] at hz
    cases hz
    unfold ARENA_SIZE at hroom
    omega
  · intro hsafe h answer p h' ok hans heq
    obtain ⟨ha, hb, m, hmalloc⟩ := calloc_some heq
    have hpages := pagesFor_ne_zero hmalloc
    have hroom : a * b ≤ 2 ^ 32 - ARENA_SIZE := by
      by_contra hroom
      have hle := pagesFor_le (big_of_passes hroom ha hb) hans hmalloc
      rcases hsafe.resolve_left hroom with h | h | h | h <;> omega
    have hmod : a * b % 2 ^ 32 = a * b := by
      apply Nat.mod_eq_of_lt
      unfold ARENA_SIZE at hroom
      omega
    rcases calloc_spec ok hans.answers with hnone | ⟨q, m', heq', -, -, hok, -, hblock, -, hzero⟩
    · rw [hnone] at heq
      cases heq
    · rw [heq'] at heq
      cases heq
      rw [hmod] at hpages hblock hzero
      refine ⟨?_, _, hblock.blockSize_eq hok, le_usable_of_room hroom hpages, hzero⟩
      unfold ARENA_SIZE at hroom
      omega

/-- On a machine of any size and for every 32-bit request: a block that `malloc` returns is large
enough exactly if the request leaves room for a header or is more than the kernel pool has, and one
that `calloc` returns exactly if the product of its arguments does, or wraps to a number that is
refused. -/
theorem requests_fit_iff (ram limit size a b : Nat) (s : Palloc.State) (hram : 256 ≤ ram)
    (hram' : ram < 2 ^ 18) (hinit : Palloc.pallocInit ram limit = some s) (hsize : size < 2 ^ 32) :
    (MallocFits s.kernelPool size ↔ MallocSafe s.kernelPool.usedMap.length size) ∧
      (CallocFits s.kernelPool a b ↔ CallocSafe s.kernelPool.usedMap.length a b) :=
  have hpool := kernelPool_pallocInit hram hram' hinit
  ⟨mallocFits_iff hpool hsize, callocFits_iff hpool⟩

/-- Some requests that are met on a machine of 4 MB. -/
theorem requests_fit_iff_small : ∃ s, Palloc.pallocInit 1024 1024 = some s ∧
    MallocFits s.kernelPool 5000 ∧ CallocFits s.kernelPool 10 100 := by
  obtain ⟨s, hs⟩ := Option.isSome_iff_exists.mp
    (show (Palloc.pallocInit 1024 1024).isSome = true by decide +kernel)
  have h := requests_fit_iff 1024 1024 5000 10 100 s (by decide) (by decide) hs (by decide)
  exact ⟨s, hs, h.1.mpr (.inl (by decide)), h.2.mpr (.inl (by decide))⟩

/-- On a machine of 4 MB, a request for `2 ^ 32 - 1` bytes gets a block of 4084, and one for 65537
times 65537 bytes gets 131073 bytes and the rest of the last page. -/
theorem wrapped_requests_shrink : ∃ s, Palloc.pallocInit 1024 1024 = some s ∧
    (PoolAnswers s.kernelPool (mallocInit fun _ => 0) (2 ^ 32 - 1) (some s.kernelPool.base) ∧
      ∃ p h, (mallocInit fun _ => 0).malloc (2 ^ 32 - 1) (some s.kernelPool.base) =
          some (some p, h) ∧ h.blockSize p = some 4084) ∧
    PoolAnswers s.kernelPool (mallocInit fun _ => 0) (65537 * 65537 % 2 ^ 32)
        (some s.kernelPool.base) ∧
      ∃ p h, (mallocInit fun _ => 0).calloc 65537 65537 (some s.kernelPool.base) =
          some (some p, h) ∧ h.blockSize p = some 135156 ∧ 135156 < 65537 * 65537 := by
  obtain ⟨s, hs⟩ := Option.isSome_iff_exists.mp
    (show ((Palloc.pallocInit 1024 1024).filter fun s => 33 ≤ s.kernelPool.usedMap.length).isSome =
      true by decide +kernel)
  obtain ⟨hinit, hpages⟩ := Option.filter_eq_some_iff.mp hs
  have hpool := kernelPool_pallocInit (by decide) (by decide) hinit
  have hpages : 33 ≤ s.kernelPool.usedMap.length := of_decide_eq_true hpages
  have hone : pagesFor (2 ^ 32 - 1) = 1 := by decide
  have hmany : pagesFor (65537 * 65537 % 2 ^ 32) = 33 := by decide
  have hle : pagesFor (2 ^ 32 - 1) ≤ s.kernelPool.usedMap.length := by omega
  have hle' : pagesFor (65537 * 65537 % 2 ^ 32) ≤ s.kernelPool.usedMap.length := by omega
  obtain ⟨p, h, heq, -, hsz⟩ := malloc_start hpool (fun _ => 0) (by decide) (by decide) hle
  obtain ⟨q, h', heq', hsz'⟩ :=
    @calloc_start 65537 65537 _ hpool (fun _ => 0) (by decide) (by decide) (by decide) (by decide) hle'
  exact ⟨s, hinit, ⟨poolAnswers_start hpool _ hle, p, h, heq, hsz⟩,
    poolAnswers_start hpool _ hle', q, h', heq', hsz', by decide⟩

end Pintos.Threads.Malloc

import Mathlib.Algebra.Group.Nat.Defs
import Mathlib.Algebra.Ring.Int.Defs
import Mathlib.Data.List.Basic
import Mathlib.Logic.Function.Basic
import Pintos.Lib.Bytes
import Pintos.Threads.Vaddr

/-!
# The kernel heap

`malloc`, `calloc`, `realloc` and `free` over descriptors of block sizes and arenas of pages. A
`size_t` is a natural number below `2 ^ 32` and its arithmetic wraps; an address is a natural
number. The headers of arenas and the links of the free lists are kept beside the bytes of memory;
what the heap may write to them is the subject of the invariant. The page allocator's answer is an
input, and an operation that has no result has failed an assertion.
Source `threads/malloc.c:37–294`, `threads/palloc.c:70–150`.
-/

namespace Pintos.Threads.Malloc

open Pintos.Threads

/-- `struct desc`, `threads/malloc.c:38–44`, without the list and the lock. -/
structure Desc where
  blockSize : Nat
  blocksPerArena : Nat
  deriving DecidableEq, Repr

/-- `ARENA_MAGIC`, `threads/malloc.c:47`. -/
def ARENA_MAGIC : Nat := 0x9a548eed

/-- `sizeof (struct arena)`, three words. -/
def ARENA_SIZE : Nat := 12

/-- `struct arena`, `threads/malloc.c:50–55`. -/
structure Arena where
  magic : Nat
  desc : Option Desc
  freeCnt : Nat
  deriving DecidableEq, Repr

/-- The state of the allocator: the bytes of memory, the arena header at the beginning of a page,
the free list of each descriptor, and the groups of pages that the page allocator has handed out. -/
structure Heap where
  mem : Nat → UInt8
  arena : Nat → Option Arena
  freeList : Desc → List Nat
  used : List (Nat × Nat)

/-- The loop of `malloc_init`, `threads/malloc.c:76–85`; `descs` has room for ten. -/
def mallocInitFrom (blockSize : Nat) : Nat → List Desc
  | 0 => []
  | room + 1 =>
    if blockSize < PGSIZE / 2 then
      ⟨blockSize, (PGSIZE - ARENA_SIZE) / blockSize⟩ :: mallocInitFrom (blockSize * 2) room
    else []

/-- The descriptors that `malloc_init` makes. -/
def descs : List Desc := mallocInitFrom 16 10

/-- The heap after `malloc_init`. -/
def mallocInit (mem : Nat → UInt8) : Heap := ⟨mem, fun _ => none, fun _ => [], []⟩

/-- A sum of `size_t`. -/
def addSize (x y : Nat) : Nat := (x + y) % 2 ^ 32

/-- `pg_round_down`, `threads/vaddr.h:38`. -/
def pageOf (p : Nat) : Nat := p / PGSIZE * PGSIZE

/-- `memset`. -/
def memset (mem : Nat → UInt8) (dst : Nat) (value : UInt8) (size : Nat) : Nat → UInt8 :=
  fun x => if dst ≤ x ∧ x < dst + size then value else mem x

/-- `memcpy` of blocks that do not overlap. -/
def memcpy (mem : Nat → UInt8) (dst src size : Nat) : Nat → UInt8 :=
  fun x => if dst ≤ x ∧ x < dst + size then mem (src + (x - dst)) else mem x

/-- The block is properly aligned for the arena, `threads/malloc.c:276–279`; the offset of the
block minus the size of the header is a `size_t`. -/
def Arena.aligned (a : Arena) (b : Nat) : Bool :=
  match a.desc with
  | some d => addSize (b % PGSIZE) (2 ^ 32 - ARENA_SIZE) % d.blockSize = 0
  | none => b % PGSIZE = ARENA_SIZE

namespace Heap

/-- `palloc_get_multiple`, `threads/palloc.c:70–101`, with the answer of the pool. -/
def pallocGetMultiple (h : Heap) (pageCnt : Nat) (answer : Option Nat) : Option (Nat × Heap) :=
  if pageCnt = 0 then none
  else answer.map fun pages => (pages, { h with used := (pages, pageCnt) :: h.used })

/-- `palloc_free_multiple`, `threads/palloc.c:119–143`; the pages must be in use. -/
def pallocFreeMultiple (h : Heap) (pages pageCnt : Nat) : Option Heap :=
  if pageCnt = 0 then some h
  else if (pages, pageCnt) ∈ h.used then
    some { h with
      used := h.used.erase (pages, pageCnt)
      arena := Function.update h.arena pages none
      mem := memset h.mem pages 0xcc (PGSIZE * pageCnt) }
  else none

/-- `block_to_arena`, `threads/malloc.c:267–282`: the header's address and content. -/
def blockToArena (h : Heap) (b : Nat) : Option (Nat × Arena) :=
  match h.arena (pageOf b) with
  | none => none
  | some a =>
    if pageOf b ≠ 0 ∧ a.magic = ARENA_MAGIC ∧ a.aligned b then some (pageOf b, a) else none

/-- `arena_to_block`, `threads/malloc.c:285–294`. -/
def arenaToBlock (h : Heap) (a idx : Nat) : Option Nat :=
  match h.arena a with
  | some ⟨magic, some d, _⟩ =>
    if a ≠ 0 ∧ magic = ARENA_MAGIC ∧ idx < d.blocksPerArena then
      some (a + ARENA_SIZE + idx * d.blockSize)
    else none
  | _ => none

/-- Store an arena's header. -/
def setArena (h : Heap) (a : Nat) (header : Arena) : Heap :=
  { h with arena := Function.update h.arena a (some header) }

/-- Store a descriptor's free list. -/
def setFreeList (h : Heap) (d : Desc) (blocks : List Nat) : Heap :=
  { h with freeList := Function.update h.freeList d blocks }

/-- The loop that adds the blocks of a new arena to the free list, `threads/malloc.c:139–143`. -/
def addBlocks (h : Heap) (d : Desc) (a : Nat) : Option Heap :=
  (List.range d.blocksPerArena).foldlM (fun h i =>
    (h.arenaToBlock a i).map fun b => h.setFreeList d (h.freeList d ++ [b])) h

/-- `list_remove` of a block, which must be on the list. -/
def listRemove (h : Heap) (d : Desc) (b : Nat) : Option Heap :=
  if b ∈ h.freeList d then some (h.setFreeList d ((h.freeList d).erase b)) else none

/-- The loop that removes the blocks of an unused arena, `threads/malloc.c:246–250`. -/
def removeBlocks (h : Heap) (d : Desc) (a : Nat) : Option Heap :=
  (List.range d.blocksPerArena).foldlM (fun h i =>
    (h.arenaToBlock a i).bind fun b => h.listRemove d b) h

/-- A new arena for a descriptor, `threads/malloc.c:122–144`; `false` if no page is available. -/
def newArena (h : Heap) (d : Desc) (answer : Option Nat) : Option (Bool × Heap) :=
  match h.pallocGetMultiple 1 answer with
  | none => some (false, h)
  | some (a, h) =>
    ((h.setArena a ⟨ARENA_MAGIC, some d, d.blocksPerArena⟩).addBlocks d a).map fun h => (true, h)

/-- The block at the front of the free list, `threads/malloc.c:147–151`. -/
def takeBlock (h : Heap) (d : Desc) : Option (Nat × Heap) :=
  match h.freeList d with
  | [] => none
  | b :: rest =>
    ((h.setFreeList d rest).blockToArena b).map fun (a, header) =>
      (b, (h.setFreeList d rest).setArena a { header with freeCnt := header.freeCnt - 1 })

/-- The pages for a block that is too big for the descriptors, `threads/malloc.c:106–119`. -/
def bigBlock (h : Heap) (size : Nat) (answer : Option Nat) : Option Nat × Heap :=
  let pageCnt := Lib.divRoundUp (addSize size ARENA_SIZE) PGSIZE
  match h.pallocGetMultiple pageCnt answer with
  | none => (none, h)
  | some (a, h) => (some (a + ARENA_SIZE), h.setArena a ⟨ARENA_MAGIC, none, pageCnt⟩)

/-- A block of a descriptor, `threads/malloc.c:122–153`. -/
def smallBlock (h : Heap) (d : Desc) (answer : Option Nat) : Option (Option Nat × Heap) :=
  match if h.freeList d = [] then h.newArena d answer else some (true, h) with
  | none => none
  | some (false, h) => some (none, h)
  | some (true, h) => (h.takeBlock d).map fun (b, h) => (some b, h)

/-- `malloc`, `threads/malloc.c:89–153`. -/
def malloc (h : Heap) (size : Nat) (answer : Option Nat) : Option (Option Nat × Heap) :=
  if size = 0 then some (none, h)
  else
    match descs.find? fun d => size ≤ d.blockSize with
    | none => some (h.bigBlock size answer)
    | some d => h.smallBlock d answer

/-- `calloc`, `threads/malloc.c:157–174`. -/
def calloc (h : Heap) (a b : Nat) (answer : Option Nat) : Option (Option Nat × Heap) :=
  let size := a * b % 2 ^ 32
  if size < a ∨ size < b then some (none, h)
  else (h.malloc size answer).map fun (p, h) =>
    (p, match p with
      | none => h
      | some p => { h with mem := memset h.mem p 0 size })

/-- `block_size`, `threads/malloc.c:178–185`. -/
def blockSize (h : Heap) (block : Nat) : Option Nat :=
  (h.blockToArena block).map fun (_, a) =>
    match a.desc with
    | some d => d.blockSize
    | none => PGSIZE * a.freeCnt - block % PGSIZE

/-- `free` of a block of a descriptor, `threads/malloc.c:226–254`. -/
def freeSmall (h : Heap) (d : Desc) (a : Nat) (header : Arena) (b : Nat) : Option Heap :=
  let freeCnt := header.freeCnt + 1
  let h := ({ h with mem := memset h.mem b 0xcc d.blockSize }.setFreeList d
    (b :: h.freeList d)).setArena a { header with freeCnt := freeCnt }
  if d.blocksPerArena ≤ freeCnt then
    if freeCnt = d.blocksPerArena then
      (h.removeBlocks d a).bind fun h => h.pallocFreeMultiple a 1
    else none
  else some h

/-- `free`, `threads/malloc.c:218–264`. -/
def free (h : Heap) (p : Option Nat) : Option Heap :=
  match p with
  | none => some h
  | some b =>
    (h.blockToArena b).bind fun (a, header) =>
      match header.desc with
      | some d => h.freeSmall d a header b
      | none => h.pallocFreeMultiple a header.freeCnt

/-- `realloc`, `threads/malloc.c:193–214`. -/
def realloc (h : Heap) (oldBlock : Option Nat) (newSize : Nat) (answer : Option Nat) :
    Option (Option Nat × Heap) :=
  if newSize = 0 then (h.free oldBlock).map fun h => (none, h)
  else
    (h.malloc newSize answer).bind fun (newBlock, h) =>
      match oldBlock, newBlock with
      | some old, some new =>
        (h.blockSize old).bind fun oldSize =>
          ({ h with mem := memcpy h.mem new old (min newSize oldSize) }.free (some old)).map
            fun h => (some new, h)
      | _, _ => some (newBlock, h)

end Heap

end Pintos.Threads.Malloc

import Pintos.Threads.HeapCalls

/-!
# Programs that use the kernel heap

A program calls the allocator with the blocks that it holds and stores into them; the page
allocator may refuse at any call. The blocks held never overlap each other or a header, and no
assertion fails.
Source `threads/malloc.c:87–294`.
-/

namespace Pintos.Threads.Malloc

open Pintos.Base

variable {p size : Nat} {answer : Option Nat}

/-- What a program does next. The answer of the page allocator comes with a call. -/
inductive Call
  | malloc (size : Nat) (answer : Option Nat)
  | calloc (a b : Nat) (answer : Option Nat)
  | realloc (old : Option Nat) (size : Nat) (answer : Option Nat)
  | free (p : Option Nat)
  | store (p i : Nat) (value : UInt8)
  deriving DecidableEq, Repr

/-- The heap, and the blocks that the program holds with the sizes it asked for. -/
structure Program where
  heap : Heap
  live : List (Nat × Nat)

namespace Program

/-- The pointer is null or that of a block the program holds. -/
def Holds (s : Program) : Option Nat → Prop
  | none => True
  | some p => p ∈ s.live.map Prod.fst

instance (s : Program) : (p : Option Nat) → Decidable (s.Holds p)
  | none => instDecidableTrue
  | some p => List.instDecidableMemOfLawfulBEq p (s.live.map Prod.fst)

/-- A call the program may make: on blocks it holds, for at most `2 ^ 31` bytes, with an answer
that the page allocator can give. -/
def Legal (s : Program) : Call → Prop
  | .malloc size answer => size ≤ 2 ^ 31 ∧ Answers s.heap size answer
  | .calloc a b answer =>
    a < 2 ^ 32 ∧ b < 2 ^ 32 ∧ a * b ≤ 2 ^ 31 ∧ Answers s.heap (a * b) answer
  | .realloc old size answer => size ≤ 2 ^ 31 ∧ s.Holds old ∧ Answers s.heap size answer
  | .free p => s.Holds p
  | .store p i _ => ∃ u ∈ s.live, u.1 = p ∧ i < u.2

instance (s : Program) (c : Call) : Decidable (s.Legal c) := by
  cases c <;> unfold Legal <;> infer_instance

/-- The program gets a block, or a null pointer. -/
def grant (live : List (Nat × Nat)) (p : Option Nat) (size : Nat) : List (Nat × Nat) :=
  match p with
  | none => live
  | some p => (p, size) :: live

/-- The program holds the block no longer. -/
def forget (live : List (Nat × Nat)) (p : Option Nat) : List (Nat × Nat) :=
  live.filter fun u => some u.1 ≠ p

/-- Make the call; without a result if an assertion fails. -/
def exec (s : Program) : Call → Option Program
  | .malloc size answer =>
    (s.heap.malloc size answer).map fun (p, h) => ⟨h, grant s.live p size⟩
  | .calloc a b answer =>
    (s.heap.calloc a b answer).map fun (p, h) => ⟨h, grant s.live p (a * b)⟩
  | .realloc old size answer =>
    (s.heap.realloc old size answer).map fun (p, h) =>
      ⟨h, if size = 0 ∨ p ≠ none then grant (forget s.live old) p size else s.live⟩
  | .free p => (s.heap.free p).map fun h => ⟨h, forget s.live p⟩
  | .store p i value =>
    some { s with heap := { s.heap with mem := Function.update s.heap.mem (p + i) value } }

end Program

/-- One call. -/
def step (s : Program) (c : Call) : Option Program := if s.Legal c then s.exec c else none

/-- A program that holds no block, with a new heap. -/
def start (mem : Nat → UInt8) : Program := ⟨mallocInit mem, []⟩

/-! ## The invariant of a program -/

/-- The heap is right, and the blocks held are allocated, large enough and listed once. -/
structure ProgramOk (s : Program) : Prop where
  heap : HeapOk s.heap
  held : ∀ u ∈ s.live, ∃ z, Allocated s.heap u.1 z ∧ u.2 ≤ z
  once : (s.live.map Prod.fst).Nodup

theorem programOk_start (mem : Nat → UInt8) : ProgramOk (start mem) where
  heap :=
    { magic := fun _ _ ha => by cases ha
      inUse := fun _ _ ha => by cases ha
      paged := fun _ hu => by cases hu
      apart := List.Pairwise.nil
      desc := fun a d hs => by
        obtain ⟨n, hn⟩ := hs
        cases hn
      listed := fun _ _ hb => by cases hb
      nodup := fun _ => List.nodup_nil
      counted := fun _ _ _ ha => by cases ha }
  held := fun _ hu => by cases hu
  once := List.nodup_nil

private theorem le_usable (hsize : size ≤ 2 ^ 31) : size ≤ usable size := by
  unfold usable
  split
  · unfold Lib.divRoundUp addSize ARENA_SIZE PGSIZE
    omega
  · next d hd => simpa using List.find?_some hd

namespace ProgramOk

variable {s : Program}

private theorem allocated (ok : ProgramOk s) (hp : s.Holds (some p)) :
    ∃ z, Allocated s.heap p z := by
  obtain ⟨u, hu, rfl⟩ := List.mem_map.mp hp
  obtain ⟨z, hz, -⟩ := ok.held u hu
  exact ⟨z, hz⟩

private theorem mem_forget {live : List (Nat × Nat)} {u : Nat × Nat} :
    u ∈ Program.forget live (some p) ↔ u ∈ live ∧ u.1 ≠ p := by
  simp [Program.forget]

private theorem nodup_forget {live : List (Nat × Nat)} (h : (live.map Prod.fst).Nodup)
    (p : Option Nat) :
    ((Program.forget live p).map Prod.fst).Nodup :=
  h.sublist (List.filter_sublist.map Prod.fst)

private theorem grant {h : Heap} {live : List (Nat × Nat)} {z : Nat} (hok : HeapOk h)
    (hheld : ∀ u ∈ live, ∃ z, Allocated h u.1 z ∧ u.2 ≤ z) (honce : (live.map Prod.fst).Nodup)
    (hp : Allocated h p z) (hsize : size ≤ z) (hfresh : p ∉ live.map Prod.fst) :
    ProgramOk ⟨h, Program.grant live (some p) size⟩ where
  heap := hok
  held u hu := by
    rcases List.mem_cons.mp hu with rfl | hu
    · exact ⟨z, hp, hsize⟩
    · exact hheld u hu
  once := List.nodup_cons.mpr ⟨hfresh, honce⟩

private theorem not_held (ok : ProgramOk s) (hfresh : ∀ w, ¬ Allocated s.heap p w) :
    p ∉ s.live.map Prod.fst := by
  intro hp
  obtain ⟨z, hz⟩ := ok.allocated hp
  exact hfresh z hz

private theorem malloc (ok : ProgramOk s) (hsize : size ≤ 2 ^ 31)
    (hans : Answers s.heap size answer) :
    ∃ s', s.exec (.malloc size answer) = some s' ∧ ProgramOk s' := by
  rcases malloc_spec ok.heap hans with heq | ⟨p, h, heq, hgrant⟩
  · exact ⟨s, by rw [Program.exec, heq]; rfl, ok⟩
  · refine ⟨⟨h, Program.grant s.live (some p) size⟩, by rw [Program.exec, heq]; rfl, ?_⟩
    apply grant hgrant.ok _ ok.once hgrant.block (le_usable hsize) (ok.not_held hgrant.fresh)
    intro u hu
    obtain ⟨z, hz, hle⟩ := ok.held u hu
    exact ⟨z, hgrant.kept _ _ hz, hle⟩

private theorem calloc (ok : ProgramOk s) {a b : Nat} (hsize : a * b ≤ 2 ^ 31)
    (hans : Answers s.heap (a * b) answer) :
    ∃ s', s.exec (.calloc a b answer) = some s' ∧ ProgramOk s' := by
  have hmod : a * b % 2 ^ 32 = a * b := Nat.mod_eq_of_lt (by omega)
  rw [← hmod] at hans
  rcases calloc_spec ok.heap hans with heq | ⟨p, h, heq, -, -, hok, hkept, hblock, hfresh, -⟩
  · exact ⟨s, by rw [Program.exec, heq]; rfl, ok⟩
  · refine ⟨⟨h, Program.grant s.live (some p) (a * b)⟩, by rw [Program.exec, heq]; rfl, ?_⟩
    rw [hmod] at hblock
    apply grant hok _ ok.once hblock (le_usable hsize) (ok.not_held hfresh)
    intro u hu
    obtain ⟨z, hz, hle⟩ := ok.held u hu
    exact ⟨z, hkept _ _ hz, hle⟩

private theorem free (ok : ProgramOk s) {p : Option Nat} (hp : s.Holds p) :
    ∃ h, s.heap.free p = some h ∧ ProgramOk ⟨h, Program.forget s.live p⟩ := by
  cases p with
  | none =>
    refine ⟨s.heap, rfl, ok.heap, ?_, nodup_forget ok.once none⟩
    intro u hu
    exact ok.held u (List.mem_of_mem_filter hu)
  | some p =>
    obtain ⟨z, hz⟩ := ok.allocated hp
    obtain ⟨h, heq, hfreed⟩ := free_spec ok.heap hz
    refine ⟨h, heq, hfreed.ok, ?_, nodup_forget ok.once (some p)⟩
    intro u hu
    obtain ⟨hmem, hne⟩ := mem_forget.mp hu
    obtain ⟨w, hw, hle⟩ := ok.held u hmem
    exact ⟨w, hfreed.kept _ _ hne hw, hle⟩

private theorem exec_realloc_none (hsize : size ≠ 0) (answer : Option Nat) :
    s.exec (.realloc none size answer) = s.exec (.malloc size answer) := by
  have hforget : Program.forget s.live none = s.live := by simp [Program.forget]
  simp only [Program.exec, Heap.realloc, if_neg hsize, hforget]
  cases s.heap.malloc size answer with
  | none => rfl
  | some r =>
    obtain ⟨p, h⟩ := r
    cases p with
    | none => simp [hsize, Program.grant]
    | some p => simp

private theorem realloc (ok : ProgramOk s) {old : Option Nat}
    (hsize : size ≤ 2 ^ 31) (hold : s.Holds old) (hans : Answers s.heap size answer) :
    ∃ s', s.exec (.realloc old size answer) = some s' ∧ ProgramOk s' := by
  by_cases hzero : size = 0
  · obtain ⟨h, heq, hok⟩ := ok.free hold
    refine ⟨⟨h, Program.forget s.live old⟩, ?_, hok⟩
    simp only [Program.exec, Heap.realloc, if_pos hzero, heq, Option.map_some]
    rw [if_pos (Or.inl hzero)]
    rfl
  · cases old with
    | none =>
      rw [exec_realloc_none hzero]
      exact ok.malloc hsize hans
    | some old =>
      obtain ⟨z, hz⟩ := ok.allocated hold
      rcases realloc_spec ok.heap hz hzero hans with heq |
        ⟨p, h, heq, hok, hne, hkept, hblock, hfresh, -⟩
      · refine ⟨s, ?_, ok⟩
        simp [Program.exec, heq, hzero]
      · refine ⟨⟨h, Program.grant (Program.forget s.live (some old)) (some p) size⟩, ?_, ?_⟩
        · simp [Program.exec, heq]
        · apply grant hok _ (nodup_forget ok.once _) hblock (le_usable hsize)
          · intro hmem
            obtain ⟨u, hu, rfl⟩ := List.mem_map.mp hmem
            exact ok.not_held hfresh (List.mem_map_of_mem (mem_forget.mp hu).1)
          · intro u hu
            obtain ⟨hmem, hne⟩ := mem_forget.mp hu
            obtain ⟨w, hw, hle⟩ := ok.held u hmem
            exact ⟨w, hkept _ _ hne hw, hle⟩

private theorem exec (ok : ProgramOk s) {c : Call} (hc : s.Legal c) :
    ∃ s', s.exec c = some s' ∧ ProgramOk s' := by
  cases c with
  | malloc size answer => exact ok.malloc hc.1 hc.2
  | calloc a b answer => exact ok.calloc hc.2.2.1 hc.2.2.2
  | realloc old size answer => exact ok.realloc hc.1 hc.2.1 hc.2.2
  | free p =>
    obtain ⟨h, heq, hok⟩ := ok.free hc
    exact ⟨_, by rw [Program.exec, heq]; rfl, hok⟩
  | store p i value =>
    refine ⟨_, rfl, ok.heap.setMem _, ?_, ok.once⟩
    intro u hu
    obtain ⟨z, hz, hle⟩ := ok.held u hu
    exact ⟨z, hz.setMem _, hle⟩

private theorem step {s' : Program} {c : Call} (ok : ProgramOk s) (hs : Malloc.step s c = some s') :
    ProgramOk s' := by
  unfold Malloc.step at hs
  split at hs
  · next hc =>
    obtain ⟨t, ht, hok⟩ := ok.exec hc
    rw [ht] at hs
    cases hs
    exact hok
  · cases hs

private theorem run {mem : Nat → UInt8} {cs : List Call}
    (hr : Base.run Malloc.step (start mem) cs = some s) : ProgramOk s :=
  run_preserves (fun _ _ _ h hs => step h hs) (programOk_start mem) hr

private theorem realloc_bytes (ok : ProgramOk s) {old z : Nat} {h : Heap}
    (hc : s.Legal (.realloc (some old) size answer)) (hz : s.heap.blockSize old = some z)
    (heq : s.heap.realloc (some old) size answer = some (some p, h)) :
    ∀ i, i < min z size → h.mem (p + i) = s.heap.mem (old + i) := by
  obtain ⟨w, hw⟩ := ok.allocated hc.2.1
  rw [hw.blockSize_eq ok.heap] at hz
  cases hz
  by_cases hzero : size = 0
  · intro i hi
    omega
  · intro i hi
    have husable := le_usable hc.1
    rcases realloc_spec ok.heap hw hzero hc.2.2 with hnone |
      ⟨p', h', heq', -, -, -, -, -, hbytes⟩
    · rw [hnone] at heq
      cases heq
    · rw [heq'] at heq
      cases heq
      exact hbytes i (by omega) (by omega)

end ProgramOk

/-- In every state that a program reaches: blocks held are pairwise apart, apart from the headers
of arenas and as large as requested; arenas count their free blocks; a block on a free list lies in
a page in use; `realloc` carries the bytes over; and no call fails an assertion. -/
theorem heap_invariant {mem : Nat → UInt8} {cs : List Call} {s : Program}
    (hr : run step (start mem) cs = some s) :
    (s.live.map Prod.fst).Nodup ∧
    (∀ u ∈ s.live, ∃ z, s.heap.blockSize u.1 = some z ∧ u.2 ≤ z ∧
      (∀ v ∈ s.live, ∀ w, v ≠ u → s.heap.blockSize v.1 = some w → Apart u.1 z v.1 w) ∧
      ∀ a header, s.heap.arena a = some header → Apart u.1 z a ARENA_SIZE) ∧
    (∀ a d n, s.heap.arena a = some ⟨ARENA_MAGIC, some d, n⟩ →
      n = ((s.heap.freeList d).filter (pageOf · = a)).length) ∧
    (∀ d, ∀ b ∈ s.heap.freeList d, ∃ n, s.heap.arena (pageOf b) = some ⟨ARENA_MAGIC, some d, n⟩ ∧
      (pageOf b, 1) ∈ s.heap.used) ∧
    (∀ old size answer p z h, s.Legal (.realloc (some old) size answer) →
      s.heap.blockSize old = some z →
      s.heap.realloc (some old) size answer = some (some p, h) →
      ∀ i, i < min z size → h.mem (p + i) = s.heap.mem (old + i)) ∧
    ∀ c, s.Legal c → ∃ s', s.exec c = some s' := by
  have ok := ProgramOk.run hr
  refine ⟨ok.once, fun u hu => ?_, fun a d n ha => ?_, fun d b hb => ?_, ?_, fun c hc => ?_⟩
  · obtain ⟨z, hz, hle⟩ := ok.held u hu
    refine ⟨z, hz.blockSize_eq ok.heap, hle, fun v hv w hne hw => ?_, ?_⟩
    · obtain ⟨w', hw', -⟩ := ok.held v hv
      rw [hw'.blockSize_eq ok.heap] at hw
      cases hw
      apply hz.apart hw' ok.heap
      intro heq
      exact hne (List.inj_on_of_nodup_map ok.once hv hu heq.symm)
    · exact fun a header ha => hz.header_apart ok.heap ha
  · rw [← List.countP_eq_length_filter, ok.heap.counted a d n ha]
  · obtain ⟨a, ⟨n, ha⟩, hmem⟩ := ok.heap.listed d b hb
    rw [ok.heap.pageOf_block ⟨n, ha⟩ hmem]
    exact ⟨n, ha, ok.heap.inUse a _ ha⟩
  · intro old size answer p z h hc hz heq
    exact ok.realloc_bytes hc hz heq
  · obtain ⟨s', hs', -⟩ := ok.exec hc
    exact ⟨s', hs'⟩

/-- A program that allocates two blocks of 1000 bytes from a page, frees one and enlarges the
other. -/
def twoBlocks : List Call :=
  [.malloc 1000 (some 0xc0100000), .calloc 10 100 none, .store 0xc010000c 0 7,
    .free (some 0xc010040c), .realloc (some 0xc010000c) 5000 (some 0xc0200000)]

theorem heap_invariant_twoBlocks : ∃ s, run step (start fun _ => 0) twoBlocks = some s ∧
    (∃ u ∈ s.live, u = (0xc020000c, 5000)) ∧ (s.live.map Prod.fst).Nodup := by
  obtain ⟨s, hs, h⟩ := run_reaches step (start fun _ => 0) twoBlocks
    (fun s => decide (∃ u ∈ s.live, u = (0xc020000c, 5000))) (by decide +kernel)
  exact ⟨s, hs, of_decide_eq_true h, (heap_invariant hs).1⟩

end Pintos.Threads.Malloc

import Pintos.Vm.Paths
import Pintos.Vm.System

/-!
# The clock hand

`clock_hand` is a pointer into the frame table that outlives every operation. Eviction leaves
it on an element of the table or on its tail; `frame_free` does not look at it, so freeing the
frame it rests on leaves it dangling. Source `vm/frame.c:12–133`.
-/

namespace Pintos.Vm

open Pintos.Base

variable {f v : FrameAddr} {r : Replacement} {k : Userprog.KPage}

/-- The operations on the frame table, and anything else the kernel does in between. -/
inductive FrameOp where
  | alloc (r : Replacement)
  | free (f : FrameAddr)
  | evict (r : Replacement)
  | rest (u : VmState)

/-- What the rest of the kernel may do: it changes entries, page directories and what frames
hold, but neither the frame table, nor the hand, nor which frames are allocated. -/
def VmState.restOf (s u : VmState) : VmState :=
  { u with
    frameTable := s.frameTable
    clockHand := s.clockHand
    frame := fun f => (s.frame f).map fun fr => (u.frame f).getD fr }

/-- One operation. -/
def frameStep (s : VmState) : FrameOp → Option VmState
  | .alloc r => (frameAlloc r s).map Prod.snd
  | .free f => frameFree f s
  | .evict r => (doEviction r s).map Prod.snd
  | .rest u => some (s.restOf u)

/-- The hand is null, the tail, or an element of the table. -/
def HandValid (s : VmState) : Prop :=
  match s.clockHand with
  | .null | .tail => True
  | .elem f => f ∈ s.frameTable

instance (s : VmState) : Decidable (HandValid s) := by
  unfold HandValid
  cases s.clockHand <;> infer_instance

/-- The operation does not free the frame under the hand. -/
def FreesElsewhere (s : VmState) : FrameOp → Prop
  | .free f => s.clockHand ≠ .elem f
  | _ => True

/-- The table lists allocated frames, each once. -/
structure TableOk (s : VmState) : Prop where
  nodup : s.frameTable.Nodup
  allocated : ∀ f ∈ s.frameTable, (s.frame f).isSome

variable {s t : VmState}

private theorem listBegin_mem {fs : List FrameAddr}
    (h : listBegin fs = .elem f) : f ∈ fs := by
  cases fs with
  | nil => cases h
  | cons g fs =>
    cases h
    exact List.mem_cons_self

/-- The element after one that is taken off the table stays on it. -/
private theorem listNext_mem_erase {fs : List FrameAddr} (hd : fs.Nodup)
    (h : listNext fs v = .elem f) : f ∈ fs.erase v := by
  induction fs with
  | nil => cases h
  | cons g fs ih =>
    simp only [listNext] at h
    split at h
    · next hg =>
      rw [hg, List.erase_cons_head]
      exact listBegin_mem h
    · next hg =>
      rw [List.erase_cons_tail (by simpa using hg)]
      exact List.mem_cons_of_mem g (ih (List.nodup_cons.mp hd).2 h)

private theorem clockSelect_hand {fuel : Nat}
    (h : clockSelect fuel s = some (v, t)) : t.clockHand = listNext s.frameTable v := by
  induction fuel generalizing s with
  | zero => cases h
  | succ fuel ih =>
    simp only [clockSelect] at h
    split at h
    · split at h
      · simp only [Option.bind_eq_bind, Option.bind_eq_some_iff] at h
        obtain ⟨fr, -, h⟩ := h
        split at h
        · have hrec := ih h
          exact hrec
        · split at h
          · have hrec := ih h
            exact hrec
          · simp only [Option.bind_eq_some_iff] at h
            obtain ⟨e, -, ⟨p, pd⟩, -, h⟩ := h
            split at h
            · have hrec := ih h
              exact hrec
            · cases h
              rfl
      · cases h
    · cases h

private theorem selectVictim_hand
    (h : selectVictim r s = some (v, t)) : t.clockHand = listNext s.frameTable v := by
  cases r with
  | clock => exact clockSelect_hand h
  | victim w =>
    simp only [selectVictim] at h
    split at h <;> cases h
    rfl

/-- Eviction takes a frame off the table and leaves the hand behind it. -/
private theorem doEviction_table
    (h : doEviction r s = some (k, t)) :
    ∃ v ∈ s.frameTable, t.frameTable = s.frameTable.erase v ∧
      t.clockHand = listNext s.frameTable v ∧ t.frame = Function.update s.frame v none := by
  simp only [doEviction, Option.bind_eq_bind, Option.bind_eq_some_iff] at h
  obtain ⟨⟨v, s1⟩, hsel, ⟨ev, s2⟩, hunmap, h⟩ := h
  obtain ⟨-, hscan, hev⟩ := selectVictim_path .idle hsel
  have hhand := selectVictim_hand hsel
  obtain ⟨fr, i, e, p, pd, -, -, -, -, -, -, rfl⟩ := evictUnmap_some hunmap
  have hv : v ∈ s.frameTable := by
    simp only [evictable, Bool.and_eq_true, decide_eq_true_eq] at hev
    exact hev.1
  refine ⟨v, hv, ?_⟩
  rw [← hscan.frameTable, ← hscan.frame]
  rw [← hscan.frameTable] at hhand
  split at h
  · obtain ⟨s3, hassign, s4, hwrite, h⟩ := by simpa only [Option.bind_eq_some_iff] using h
    obtain ⟨e3, -, hs3⟩ := evictAssign_some hassign
    obtain ⟨e4, -, -, rfl⟩ := evictWrite_some hwrite
    cases h
    rcases hs3 with ⟨-, -, rfl⟩ | ⟨-, n, -, -, rfl⟩ <;> exact ⟨rfl, hhand, rfl⟩
  · cases h
    exact ⟨rfl, hhand, rfl⟩

private theorem TableOk.doEviction (h : TableOk s)
    (he : doEviction r s = some (k, t)) : TableOk t ∧ HandValid t := by
  obtain ⟨v, -, htable, hhand, hframe⟩ := doEviction_table he
  refine ⟨⟨?_, fun f hf => ?_⟩, ?_⟩
  · rw [htable]
    exact h.nodup.erase v
  · rw [htable, h.nodup.mem_erase_iff] at hf
    rw [hframe, Function.update_of_ne hf.1]
    exact h.allocated f hf.2
  · rw [HandValid, hhand, htable]
    split
    · trivial
    · trivial
    · next f hf => exact listNext_mem_erase h.nodup hf

private theorem HandValid.push (h : HandValid s) (f : FrameAddr)
    (htable : t.frameTable = s.frameTable ++ [f]) (hhand : t.clockHand = s.clockHand) :
    HandValid t := by
  rw [HandValid, hhand, htable]
  rw [HandValid] at h
  split
  · trivial
  · trivial
  · next g hg =>
    rw [hg] at h
    exact List.mem_append_left [f] h

private theorem TableOk.framePage (h : TableOk s)
    (hv : HandValid s) (hp : framePage r s = some (k, t)) :
    TableOk t ∧ HandValid t ∧ ∀ f, s.frame f = none → t.frame f = none := by
  have hev : ∀ {r}, Vm.doEviction r s = some (k, t) →
      TableOk t ∧ HandValid t ∧ ∀ f, s.frame f = none → t.frame f = none := by
    intro r he
    obtain ⟨v, -, -, -, hframe⟩ := doEviction_table he
    refine ⟨(h.doEviction he).1, (h.doEviction he).2, fun f hf => ?_⟩
    rw [hframe]
    by_cases hfv : f = v
    · rw [hfv, Function.update_self]
    · rw [Function.update_of_ne hfv, hf]
  cases r with
  | victim v => exact hev hp
  | clock =>
    simp only [Vm.framePage] at hp
    split at hp
    · next ks hpalloc =>
      cases hp
      simp only [pallocGetUserPage] at hpalloc
      split at hpalloc <;> cases hpalloc
      exact ⟨⟨h.nodup, h.allocated⟩, hv, fun _ hf => hf⟩
    · exact hev hp

private theorem TableOk.frameAlloc (h : TableOk s)
    (hv : HandValid s) (ha : frameAlloc r s = some (f, t)) : TableOk t ∧ HandValid t := by
  simp only [Vm.frameAlloc, Option.bind_eq_bind, Option.bind_eq_some_iff] at ha
  obtain ⟨g, hg, ⟨k, s'⟩, hpage, ha⟩ := ha
  have hfree : s.frame g = none := frame_of_mallocFrame hg
  have hok : TableOk s.mallocFrame.2 := ⟨h.nodup, h.allocated⟩
  have hvalid : HandValid s.mallocFrame.2 := hv
  obtain ⟨hok', hvalid', hkept⟩ := hok.framePage hvalid hpage
  have hnew : s'.frame g = none := hkept g hfree
  have hnot : g ∉ s'.frameTable := by
    intro hmem
    have hsome := hok'.allocated g hmem
    rw [hnew] at hsome
    cases hsome
  cases ha
  refine ⟨⟨?_, fun g hg => ?_⟩, hvalid'.push f rfl rfl⟩
  · simp only [List.nodup_append, List.nodup_singleton, List.mem_singleton]
    refine ⟨hok'.nodup, trivial, fun a ha b hb hab => hnot ?_⟩
    rwa [← hb, ← hab]
  · by_cases hgf : g = f
    · simp [hgf]
    · have hmem : g ∈ s'.frameTable := by simpa [hgf] using hg
      simpa [hgf] using hok'.allocated g hmem

private theorem TableOk.frameFree (h : TableOk s) (hv : HandValid s)
    (hf : frameFree f s = some t) :
    TableOk t ∧ (HandValid t ↔ s.clockHand ≠ .elem f) := by
  obtain ⟨fr, -, rfl⟩ := frameFree_some hf
  refine ⟨⟨h.nodup.erase f, fun g hg => ?_⟩, ?_⟩
  · have hg : g ∈ s.frameTable.erase f := hg
    rw [h.nodup.mem_erase_iff] at hg
    simpa [VmState.poolFreed, hg.1] using h.allocated g hg.2
  · simp only [HandValid, VmState.poolFreed] at hv ⊢
    cases hhand : s.clockHand with
    | null | tail => simp
    | elem g =>
      rw [hhand] at hv
      have hg : g ∈ s.frameTable := hv
      simp only [h.nodup.mem_erase_iff, hg, and_true, ne_eq, ClockHand.elem.injEq]

/-- Every operation keeps the table, and the hand stays valid exactly if the operation does not
free the frame under it. -/
theorem TableOk.frameStep {op : FrameOp} (h : TableOk s) (hv : HandValid s)
    (hs : frameStep s op = some t) : TableOk t ∧ (HandValid t ↔ FreesElsewhere s op) := by
  cases op with
  | alloc r =>
    obtain ⟨⟨f, t'⟩, ha, rfl⟩ := Option.map_eq_some_iff.mp hs
    obtain ⟨hok, hvalid⟩ := h.frameAlloc hv ha
    exact ⟨hok, iff_of_true hvalid trivial⟩
  | free f => exact h.frameFree hv hs
  | evict r =>
    obtain ⟨⟨k, t'⟩, he, rfl⟩ := Option.map_eq_some_iff.mp hs
    obtain ⟨hok, hvalid⟩ := h.doEviction he
    exact ⟨hok, iff_of_true hvalid trivial⟩
  | rest u =>
    cases hs
    refine ⟨⟨h.nodup, fun f hf => ?_⟩, iff_of_true hv trivial⟩
    simpa [VmState.restOf] using h.allocated f hf

/-- From boot on, through any sequence of operations on the frame table and of changes by the rest
of the kernel, the hand is valid in every state reached if and only if no operation frees the
frame under it. -/
theorem hand_valid_iff_frees_elsewhere {pages slots : Nat} {mem : Userprog.KPage → PageData}
    {device : Nat → SectorData} {inode : InodeNo → Filesys.Inode} {heap : Nat → Option Nat}
    {ops : List FrameOp}
    (hr : run frameStep (VmState.init pages slots mem device inode heap) ops = some t) :
    (∀ pre s, pre <+: ops →
      run frameStep (VmState.init pages slots mem device inode heap) pre = some s → HandValid s) ↔
    Along frameStep FreesElsewhere (VmState.init pages slots mem device inode heap) ops := by
  apply forall_prefix_iff_along (I := TableOk) (P := HandValid) _ _ _ _ hr
  · intro s op t hok hv hs
    exact (hok.frameStep hv hs).1
  · intro s op t hok hv hs
    exact (hok.frameStep hv hs).2
  · exact ⟨List.nodup_nil, fun _ hf => by cases hf⟩
  · trivial

instance (s : VmState) (op : FrameOp) : Decidable (FreesElsewhere s op) := by
  cases op <;> unfold FreesElsewhere <;> infer_instance

/-- Every frame holds a zero page of one entry, of a process that has not used it. -/
def idleFrames : VmState :=
  { smallMachine 3 4 with
    spte := fun _ => some
      { upage := 0xbffff000, type := .zero, writable := true, file := none, fileOffset := 0,
        readBytes := 0, zeroBytes := 4096, swapSlot := 0, frame := none, pagedir := some 0,
        mapid := 0 }
    userPool := [true, true, true]
    frame := fun f => some ⟨f - 1, some 0, false⟩
    pagedir := fun _ => some Userprog.pagedirCreate }

/-- An eviction leaves the hand on the second frame, and the third one is freed. -/
theorem hand_valid_iff_frees_elsewhere_freed :
    ∃ t, run frameStep (smallMachine 3 4) [.alloc .clock, .alloc .clock, .alloc .clock,
        .rest idleFrames, .evict .clock, .free 3] = some t ∧
      t.clockHand = .elem 2 ∧ t.frame 3 = none ∧ HandValid t := by
  obtain ⟨t, hrun, ht⟩ := run_reaches frameStep (smallMachine 3 4) [.alloc .clock, .alloc .clock,
      .alloc .clock, .rest idleFrames, .evict .clock, .free 3]
    (fun t => t.clockHand == .elem 2 && (t.frame 3).isNone) (by decide +kernel)
  rw [Bool.and_eq_true, beq_iff_eq, Option.isNone_iff_eq_none] at ht
  have hall := (hand_valid_iff_frees_elsewhere hrun).mpr (by decide +kernel)
  exact ⟨t, hrun, ht.1, ht.2, hall _ t (List.prefix_refl _) hrun⟩

/-- Two processes fill both pages of memory; loading a page evicts the first frame and leaves the
hand on the second, whose process then exits: the hand points to a freed frame. -/
theorem hand_dangles_after_exit :
    ∃ s, run step (smallMachine 2 4)
        [.exec 0 (some 0) .clock, .exec 1 (some 1) .clock, .call 0 (.enter 0xbfffe000),
          .call 0 (.vmLoadPage 0xbfffe000 false .clock), .call 1 .exit] = some s ∧
      ¬ HandValid s := by
  obtain ⟨s, hs⟩ := Option.isSome_iff_exists.mp
    (show ((run step (smallMachine 2 4)
        [.exec 0 (some 0) .clock, .exec 1 (some 1) .clock, .call 0 (.enter 0xbfffe000),
          .call 0 (.vmLoadPage 0xbfffe000 false .clock), .call 1 .exit]).filter
      fun s => decide (¬ HandValid s)).isSome = true by decide +kernel)
  obtain ⟨hrun, hnot⟩ := Option.filter_eq_some_iff.mp hs
  exact ⟨s, hrun, of_decide_eq_true hnot⟩

end Pintos.Vm

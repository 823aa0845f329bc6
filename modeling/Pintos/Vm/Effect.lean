import Pintos.Base.Path
import Pintos.Vm.System

/-!
# Elementary effects on the memory system

What an operation can do to entries, frames, page directories and swap, cut into the smallest
pieces after which the tables are in order again. Every completed operation is a sequence of
these effects, so that an invariant is proved by looking at each effect once. An effect fixes
the memory system only (`SameMemory`); files and the allocator are left open, and `HandlesKept`
is carried beside it for the functions that move pages.
-/

namespace Pintos.Vm

open Pintos.Base Pintos.Threads Pintos.Userprog Pintos.Lib Pintos.Filesys

/-- What `frame_alloc` holds between its parts: nothing, a page that no frame has, or a frame
on the table that no entry has. -/
inductive Flight where
  | idle
  | page (k : KPage)
  | frame (f : FrameAddr)

/-- The slot an entry owns: the one its most recent `swap_alloc` returned, until that slot is
passed to `swap_free`. -/
def slotOf : List SwapEvent → SpteAddr → Option Nat
  | [], _ => none
  | .birth j :: log, i => if j = i then none else slotOf log i
  | .alloc j slot :: log, i => if j = i then some slot else slotOf log i
  | .free slot :: log, i => if slotOf log i = some slot then none else slotOf log i

/-- Two page directories that differ in accessed bits only. -/
structure SameMapping (pd pd' : PageDir) : Prop where
  getPage : ∀ u, pagedirGetPage pd' u = pagedirGetPage pd u
  isDirty : ∀ u, pagedirIsDirty pd' u = pagedirIsDirty pd u
  writable : ∀ u, mmuWritable pd' u = mmuWritable pd u
  table : pd'.table = pd.table

/-- Open handles keep their inode, inodes keep their data, and the processes' tables of files
and mappings stay as they are. -/
structure FilesKept (s t : VmState) : Prop where
  handle : ∀ f file, s.file f = some file →
    ∃ file', t.file f = some file' ∧ file'.inode = file.inode
  data : ∀ n, (t.inode n).data = (s.inode n).data
  executable : t.executable = s.executable
  fdTable : t.fdTable = s.fdTable
  mmapList : t.mmapList = s.mmapList

/-- Handles move their position at most; inodes and the processes' tables of files and mappings
stay as they are. -/
structure HandlesKept (s t : VmState) : Prop where
  file : ∀ f, (t.file f).map (fun h => (h.inode, h.denyWrite)) =
    (s.file f).map fun h => (h.inode, h.denyWrite)
  inode : t.inode = s.inode
  executable : t.executable = s.executable
  fdTable : t.fdTable = s.fdTable
  mmapList : t.mmapList = s.mmapList
  nextMapid : t.nextMapid = s.nextMapid

/-- An entry whose first bytes are zeros or come from the executable of `p`. -/
def Backed (s : VmState) (p : Pid) (e : SptEntry) : Prop :=
  (e.type = .zero ∧ e.readBytes = 0) ∨ ∃ f, e.type = .file ∧ e.file = some f ∧ s.executable p = some f

/-- The bytes an entry's page has when it is loaded. -/
inductive Source (s : VmState) (e : SptEntry) : PageData → Prop where
  | zero (h : e.type = .zero) : Source s e fun _ => 0
  | file {f : FileAddr} {file : File} (h : e.type = .file) (hf : e.file = some f)
      (ho : s.file f = some file) :
      Source s e (copyBytes e.readBytes (fun j => (s.inode file.inode).data (e.fileOffset + j))
        fun _ => 0)
  | swap (h : e.type = .swap) (hs : validSlot s e.swapSlot = true) :
      Source s e (readSectors s.swapDevice e.swapSlot)

namespace VmState

/-- Frame `v` taken off the table and its page unmapped; the entry becomes `e'`. -/
def unmapped (s : VmState) (v : FrameAddr) (p : Pid) (pd : PageDir) (upage : Addr)
    (i : SpteAddr) (e' : SptEntry) : VmState :=
  { s with
    frameTable := s.frameTable.erase v
    pagedir := Function.update s.pagedir p (some (pagedirClearPage pd upage))
    spte := Function.update s.spte i (some e')
    frame := Function.update s.frame v none }

/-- A page of the user pool returned; its bytes are lost. -/
def poolFreed (s : VmState) (k : KPage) (d : PageData) : VmState :=
  { s with userPool := bitmapSet s.userPool k false, mem := Function.update s.mem k d }

/-- An entry unlinked and freed. -/
def entryFreed (s : VmState) (p : Pid) (i : SpteAddr) : VmState :=
  { s with
    spte := Function.update s.spte i none
    spt := Function.update s.spt p ((s.spt p).erase i) }

/-- A slot passed to `swap_free`. -/
def slotFreed (s : VmState) (slot : Nat) : VmState :=
  { s with
    swapBitmap := bitmapSet s.swapBitmap (slot / SECTORS_PER_PAGE) false
    swapLog := .free slot :: s.swapLog }

/-- A filled frame mapped for an entry and linked with it. -/
def attached (s : VmState) (p : Pid) (pd : PageDir) (i : SpteAddr) (e : SptEntry)
    (f : FrameAddr) (fr : Frame) (d : PageData) : VmState :=
  { s with
    pagedir := Function.update s.pagedir p (some pd)
    spte := Function.update s.spte i (some { e with frame := some f, pagedir := some p })
    frame := Function.update s.frame f (some { fr with spte := some i })
    mem := Function.update s.mem fr.kpage d }

end VmState

/-- An elementary effect of the functions that move pages. The list holds the slots that their
owner gives up without passing them to `swap_free`. -/
inductive PageEffect : Flight → VmState → List Nat → Flight → VmState → Prop where
  /-- Nothing of the memory system changes. -/
  | quiet {fl s t} (h : SameMemory s t) : PageEffect fl s [] fl t
  /-- Accessed bits change. -/
  | touch {fl s t p pd pd'} (hpd : s.pagedir p = some pd) (hm : SameMapping pd pd')
      (h : SameMemory (s.setPagedir p pd') t) : PageEffect fl s [] fl t
  /-- A frame is pinned or unpinned. -/
  | pin {fl s t f fr} (hf : s.frame f = some fr) (b : Bool)
      (h : SameMemory (s.setFrame f { fr with pinned := b }) t) : PageEffect fl s [] fl t
  /-- A new entry, not resident and without a slot, enters a table. -/
  | insert {fl s t p i e} (hi : s.spte i = none) (hp : (s.pagedir p).isSome)
      (hu : pgOfs e.upage = 0 ∧ isUserVaddr e.upage = true)
      (hn : ∀ j ∈ s.spt p, ∀ e', s.spte j = some e' → e'.upage ≠ e.upage)
      (hf : e.frame = none) (ht : e.type ≠ .swap ∧ e.swapSlot = 0) (hb : Backed s p e)
      (h : SameMemory { s.newSpte i e with spt := Function.update s.spt p (i :: s.spt p) } t) :
      PageEffect fl s [] fl t
  /-- A clean page that is not in swap leaves memory. -/
  | evictClean {s t v fr i p e pd} (hv : s.frame v = some fr) (hpin : fr.pinned = false)
      (hi : i ∈ s.spt p) (he : s.spte i = some e) (hev : e.frame = some v)
      (hpd : s.pagedir p = some pd) (hd : pagedirIsDirty pd e.upage = false)
      (ht : e.type ≠ .swap)
      (h : SameMemory (s.unmapped v p pd e.upage i { e with frame := none }) t) :
      PageEffect .idle s [] (.page fr.kpage) t
  /-- A page leaves memory for a new slot. -/
  | evictAlloc {s t v fr i p e pd n} (hv : s.frame v = some fr) (hpin : fr.pinned = false)
      (hi : i ∈ s.spt p) (he : s.spte i = some e) (hev : e.frame = some v)
      (hpd : s.pagedir p = some pd)
      (hd : e.type ≠ .swap → pagedirIsDirty pd e.upage = true)
      (ht : e.type ≠ .swap ∨ e.swapSlot = 0)
      (hn : n < s.swapBitmap.length) (hb : bitmapTest s.swapBitmap n = false)
      (h : SameMemory { s.unmapped v p pd e.upage i
            { e with frame := none, type := .swap, swapSlot := n * SECTORS_PER_PAGE } with
          swapBitmap := bitmapSet s.swapBitmap n true
          swapLog := .alloc i (n * SECTORS_PER_PAGE) :: s.swapLog
          swapDevice := writeSectors s.swapDevice (n * SECTORS_PER_PAGE) (s.mem fr.kpage) } t) :
      PageEffect .idle s (slotOf s.swapLog i).toList (.page fr.kpage) t
  /-- A page leaves memory for the slot it has kept. -/
  | evictKeep {s t v fr i p e pd} (hv : s.frame v = some fr) (hpin : fr.pinned = false)
      (hi : i ∈ s.spt p) (he : s.spte i = some e) (hev : e.frame = some v)
      (hpd : s.pagedir p = some pd) (ht : e.type = .swap) (hslot : e.swapSlot ≠ 0)
      (h : SameMemory { s.unmapped v p pd e.upage i { e with frame := none } with
          swapDevice := writeSectors s.swapDevice e.swapSlot (s.mem fr.kpage) } t) :
      PageEffect .idle s [] (.page fr.kpage) t
  /-- A page is taken from the user pool. -/
  | palloc {s t k} (hk : k < s.userPool.length) (hb : bitmapTest s.userPool k = false)
      (h : SameMemory { s with userPool := bitmapSet s.userPool k true } t) :
      PageEffect .idle s [] (.page k) t
  /-- A page becomes a new frame on the table. -/
  | push {s t k f d} (hf : s.frame f = none)
      (h : SameMemory { s with
          mem := Function.update s.mem k d
          frame := Function.update s.frame f (some { kpage := k, spte := none, pinned := false })
          frameTable := s.frameTable ++ [f] } t) :
      PageEffect (.page k) s [] (.frame f) t
  /-- A frame that could not be filled or mapped is given back. -/
  | discard {s t f fr d} (hf : s.frame f = some fr)
      (h : SameMemory ({ s with
          frameTable := s.frameTable.erase f
          frame := Function.update s.frame f none }.poolFreed fr.kpage d) t) :
      PageEffect (.frame f) s [] .idle t
  /-- A page is loaded. -/
  | attach {s t f fr i p e pd pd' b d} (hf : s.frame f = some fr) (hi : i ∈ s.spt p)
      (he : s.spte i = some e) (hpd : s.pagedir p = some pd)
      (hinst : installPage b pd e.upage fr.kpage e.writable = some pd') (hd : Source s e d)
      (h : SameMemory (s.attached p pd' i e f fr d) t) :
      PageEffect (.frame f) s [] .idle t
  /-- A page is loaded from its slot, and the slot is freed. -/
  | attachFree {s t f fr i p e pd pd' b d} (hf : s.frame f = some fr) (hi : i ∈ s.spt p)
      (he : s.spte i = some e) (hpd : s.pagedir p = some pd)
      (hinst : installPage b pd e.upage fr.kpage e.writable = some pd') (hd : Source s e d)
      (ht : e.type = .swap)
      (h : SameMemory ((s.attached p pd' i { e with swapSlot := 0 } f fr d).slotFreed
        e.swapSlot) t) :
      PageEffect (.frame f) s [] .idle t

/-- The end of entry `i` of process `p`, with its frame if it has one. A slot that the entry
has is kept only where the entry's fields do not show it. -/
inductive EndEffect (p : Pid) (i : SpteAddr) (e : SptEntry) (s : VmState) :
    List Nat → VmState → Prop where
  /-- An entry that is not resident is destroyed, keeping its slot. -/
  | remove {t} (hf : e.frame = none) (hk : e.type ≠ .swap ∨ e.swapSlot = 0)
      (h : SameMemory (s.entryFreed p i) t) :
      EndEffect p i e s (slotOf s.swapLog i).toList t
  /-- An entry that is not resident is destroyed together with its slot. -/
  | removeFree {t} (hf : e.frame = none) (ht : e.type = .swap)
      (h : SameMemory ((s.entryFreed p i).slotFreed e.swapSlot) t) :
      EndEffect p i e s [] t
  /-- A resident entry is destroyed with its frame, keeping its slot. -/
  | dispose {t v fr pd d} (hv : s.frame v = some fr) (hev : e.frame = some v)
      (hpd : s.pagedir p = some pd) (hk : e.type ≠ .swap ∨ e.swapSlot = 0)
      (h : SameMemory (((s.unmapped v p pd e.upage i { e with frame := none }).poolFreed
        fr.kpage d).entryFreed p i) t) :
      EndEffect p i e s (slotOf s.swapLog i).toList t
  /-- A resident entry is destroyed with its frame and its slot. -/
  | disposeFree {t v fr pd d} (hv : s.frame v = some fr) (hev : e.frame = some v)
      (hpd : s.pagedir p = some pd) (ht : e.type = .swap) (hslot : e.swapSlot ≠ 0)
      (h : SameMemory ((((s.unmapped v p pd e.upage i { e with frame := none }).poolFreed
        fr.kpage d).entryFreed p i).slotFreed e.swapSlot) t) :
      EndEffect p i e s [] t

/-- An elementary effect of any operation: that of a page function, or one of those that store
a byte, map a file, end an entry, or begin or end a process. -/
inductive Effect : Flight → VmState → List Nat → Flight → VmState → Prop where
  | page {fl s L fl' t} (h : PageEffect fl s L fl' t) : Effect fl s L fl' t
  /-- The MMU stores a byte. -/
  | store {s t p pd u k d} (hpd : s.pagedir p = some pd) (hk : pagedirGetPage pd u = some k)
      (hw : mmuWritable pd u = true)
      (h : SameMemory ((s.setPagedir p (mmuAccess pd u true)).setMem k d) t) :
      Effect .idle s [] .idle t
  /-- A new entry for a page of a mapping. -/
  | map {s t p i e} (hi : s.spte i = none) (hp : (s.pagedir p).isSome)
      (hu : pgOfs e.upage = 0 ∧ isUserVaddr e.upage = true)
      (hn : ∀ j ∈ s.spt p, ∀ e', s.spte j = some e' → e'.upage ≠ e.upage)
      (hf : e.frame = none) (ht : e.type ≠ .swap ∧ e.swapSlot = 0)
      (h : SameMemory { s.newSpte i e with spt := Function.update s.spt p (i :: s.spt p) } t) :
      Effect .idle s [] .idle t
  /-- An entry ends. -/
  | finish {s L t p i e} (hi : i ∈ s.spt p) (he : s.spte i = some e)
      (h : EndEffect p i e s L t) : Effect .idle s L .idle t
  /-- A process gets its page directory. -/
  | create {s t p} (hp : s.pagedir p = none)
      (h : SameMemory { s with
          pagedir := Function.update s.pagedir p (some pagedirCreate) } t) :
      Effect .idle s [] .idle t
  /-- A process without entries loses its page directory. -/
  | destroy {s t p} (hp : s.spt p = [])
      (h : SameMemory { s with pagedir := Function.update s.pagedir p none } t) :
      Effect .idle s [] .idle t

/-- A path of page effects that keep handles. -/
def PagePath (a : Flight × VmState) (L : List Nat) (b : Flight × VmState) : Prop :=
  Base.Path (fun a L b => PageEffect a.1 a.2 L b.1 b.2 ∧ HandlesKept a.2 b.2) a L b

/-- A path of effects. -/
def EffectPath (a : Flight × VmState) (L : List Nat) (b : Flight × VmState) : Prop :=
  Base.Path (fun a L b => Effect a.1 a.2 L b.1 b.2) a L b

theorem PagePath.effectPath {a b : Flight × VmState} {L : List Nat} (h : PagePath a L b) :
    EffectPath a L b :=
  Base.Path.mono (fun h => .page h.1) h

end Pintos.Vm

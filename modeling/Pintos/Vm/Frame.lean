import Pintos.Vm.Swap

/-!
# Frames and eviction

`frame_alloc`, `frame_free` and `do_eviction` with its clock. Eviction is cut where the code
drops `frame_lock`: unmapping the victim, choosing its slot, writing it out.
Source `vm/frame.c:1–133`.
-/

namespace Pintos.Vm

open Pintos.Threads Pintos.Userprog Pintos.Lib

/-- `list_begin` of the frame table, `lib/kernel/list.c`. -/
def listBegin : List FrameAddr → ClockHand
  | [] => .tail
  | f :: _ => .elem f

/-- `list_next` of an element of the frame table, `lib/kernel/list.c`. -/
def listNext : List FrameAddr → FrameAddr → ClockHand
  | [], _ => .tail
  | g :: fs, f => if g = f then listBegin fs else listNext fs f

/-- An entry's page directory, as `spte->pagedir` names it. -/
def ownerPagedir (s : VmState) (e : SptEntry) : Option (Pid × PageDir) := do
  let p ← e.pagedir
  let pd ← s.pagedir p
  some (p, pd)

/-- The hand at the start of a round, `vm/frame.c:80–81`. -/
def clockStart (s : VmState) : ClockHand :=
  match s.clockHand with
  | .elem f => .elem f
  | _ => listBegin s.frameTable

/-- The clock loop up to the choice of a victim, `vm/frame.c:78–96`. A hand that points to an
element no longer on the table is a pointer to a freed frame. After two rounds of the table
every accessed bit has been cleared, so without a victim by then the loop never ends. -/
def clockSelect : Nat → VmState → Option (FrameAddr × VmState)
  | 0, _ => none
  | fuel + 1, s =>
    match clockStart s with
    | .elem v =>
      if v ∈ s.frameTable then do
        let victim ← s.frame v
        let s := { s with clockHand := listNext s.frameTable v }
        if victim.pinned then clockSelect fuel s
        else match victim.spte with
          | none => clockSelect fuel s
          | some i =>
            let e ← s.spte i
            let (p, pd) ← ownerPagedir s e
            if pagedirIsAccessed pd e.upage then
              clockSelect fuel (s.setPagedir p (pagedirSetAccessed pd e.upage false))
            else some (v, s)
      else none
    | _ => none

/-- How `frame_alloc` finds a page: as the code does, or by evicting a given frame, which
stands for any replacement policy that respects `pinned`. -/
inductive Replacement where
  | clock
  | victim (v : FrameAddr)
  deriving DecidableEq, Repr

/-- A frame that eviction may take: on the table, unpinned, and mapped by an entry. -/
def evictable (s : VmState) (v : FrameAddr) : Bool :=
  decide (v ∈ s.frameTable) && (s.frame v).any fun fr => !fr.pinned && fr.spte.isSome

/-- The choice of the frame to evict; the hand moves past it. -/
def selectVictim (r : Replacement) (s : VmState) : Option (FrameAddr × VmState) :=
  match r with
  | .clock => clockSelect (2 * s.frameTable.length + 2) s
  | .victim v =>
    if evictable s v then some (v, { s with clockHand := listNext s.frameTable v }) else none

/-- What `do_eviction` keeps of its victim after unmapping it: the entry, the page, and
whether the page goes to swap. -/
structure Evicted where
  spte : SpteAddr
  kpage : KPage
  writeBack : Bool
  deriving DecidableEq, Repr

/-- Take the victim off the table and unmap its page, `vm/frame.c:98–111`. -/
def evictUnmap (v : FrameAddr) (s : VmState) : Option (Evicted × VmState) := do
  let victim ← s.frame v
  let i ← victim.spte
  let e ← s.spte i
  let (p, pd) ← ownerPagedir s e
  let dirty := pagedirIsDirty pd e.upage
  some ({ spte := i, kpage := victim.kpage, writeBack := dirty || e.type == .swap },
    { s with
      frameTable := s.frameTable.erase v
      pagedir := Function.update s.pagedir p (some (pagedirClearPage pd e.upage))
      spte := Function.update s.spte i (some { e with frame := none })
      frame := Function.update s.frame v none })

/-- Give the unmapped page a slot, unless it has kept one, `vm/frame.c:115–124`. -/
def evictAssign (ev : Evicted) (s : VmState) : Option VmState := do
  let e ← s.spte ev.spte
  if e.type ≠ .swap ∨ e.swapSlot = 0 then
    let (slot, s) ← swapAlloc ev.spte s
    some (s.setSpte ev.spte { e with swapSlot := slot, type := .swap })
  else some s

/-- Write the unmapped page to its slot, `vm/frame.c:119,125`. -/
def evictWrite (ev : Evicted) (s : VmState) : Option VmState := do
  let e ← s.spte ev.spte
  swapWrite e.swapSlot ev.kpage s

/-- `do_eviction`, `vm/frame.c:67–133`. -/
def doEviction (r : Replacement) (s : VmState) : Option (KPage × VmState) := do
  let (v, s) ← selectVictim r s
  let (ev, s) ← evictUnmap v s
  if ev.writeBack then
    let s ← evictAssign ev s
    let s ← evictWrite ev s
    some (ev.kpage, s)
  else some (ev.kpage, s)

/-- The page of a new frame: from the user pool, else by eviction, `vm/frame.c:34–40`. -/
def framePage (r : Replacement) (s : VmState) : Option (KPage × VmState) :=
  match r with
  | .victim v => doEviction (.victim v) s
  | .clock =>
    match pallocGetUserPage s with
    | some ks => some ks
    | none => doEviction .clock s

/-- `frame_alloc (PAL_ZERO)`, the only way it is called, `vm/frame.c:25–53`. -/
def frameAlloc (r : Replacement) (s : VmState) : Option (FrameAddr × VmState) := do
  let f ← s.mallocFrame.1
  let (k, s) ← framePage r s.mallocFrame.2
  some (f, { s with
    mem := Function.update s.mem k fun _ => 0
    frame := Function.update s.frame f (some { kpage := k, spte := none, pinned := false })
    frameTable := s.frameTable ++ [f] })

/-- `frame_free`, `vm/frame.c:55–64`. -/
def frameFree (f : FrameAddr) (s : VmState) : Option VmState := do
  let fr ← s.frame f
  if f ∈ s.frameTable then
    let s ← pallocFreeUserPage { s with frameTable := s.frameTable.erase f } fr.kpage
    some { s with frame := Function.update s.frame f none }
  else none

end Pintos.Vm

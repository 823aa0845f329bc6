import Pintos.Userprog.Syscall
import Pintos.Vm.Reachable

/-!
# Which addresses a transfer reaches

The bytes that `syscall_read` and `syscall_write` move lie in user pages with an entry. The MMU
and the fault handler see to that below `PHYS_BASE`; that a transfer stays below is the task of
the checks before it. Those of `syscall_write` visit every byte. `syscall_read` visits the pages
up to that of the last byte, an address that is computed modulo `2 ^ 32`.
-/

namespace Pintos.Userprog

open Pintos.Base Pintos.Threads Pintos.Vm Pintos.Lib Pintos.Filesys

variable {s t : VmState} {p : Pid} {w ok : Bool} {a buffer size : Addr}

/-- A process that is running, in a state whose tables agree. -/
structure Running (p : Pid) (s : VmState) : Prop where
  consistent : Consistent .idle s
  alive : (s.pagedir p).isSome

/-- The page of an address has an entry, a writable one if asked for. -/
def HasEntry (w : Bool) (p : Pid) (a : Addr) (s : VmState) : Prop :=
  ∃ i e, sptLookup s p a = some i ∧ s.spte i = some e ∧ (w = true → e.writable = true)

private theorem HasEntry.extends (h : HasEntry w p a s) (hx : Extends s t)
    (hc : Consistent .idle t) :
    HasEntry w p a t := by
  obtain ⟨i, e, hi, he, hw⟩ := h
  obtain ⟨hmem, e1, he1, hup⟩ := sptFind_some hi
  cases he.symm.trans he1
  obtain ⟨e', he', hup', hw', -⟩ := hx.spte i e he
  refine ⟨i, e', ?_, he', fun h => hw'.trans (hw h)⟩
  rw [sptLookup, ← hup, ← hup']
  exact hc.sptFind_eq (hx.spt p i hmem) he'

theorem Running.path (h : Running p s) {L : List Nat} (hp : PagePath (.idle, s) L (.idle, t)) :
    Running p t ∧ Extends s t :=
  ⟨⟨hp.consistent h.consistent, by rw [hp.extends.pagedir]; exact h.alive⟩, hp.extends⟩

private theorem Running.sameMemory (h : Running p s) (hm : SameMemory s t) :
    Running p t ∧ Extends s t := by
  exact ⟨⟨h.consistent.congr hm, by rw [hm.pagedir]; exact h.alive⟩, hm.extends⟩

/-! ## Checks -/

private theorem Running.isValidAddr (h : Running p s) (hv : isValidAddr p a s = some (ok, t)) :
    Running p t ∧ (ok = true → isUserVaddr a = true) := by
  unfold Userprog.isValidAddr at hv
  split at hv
  · cases hv
    exact ⟨h, by simp⟩
  · next hcond =>
    have huser : isUserVaddr a = true := by simpa using (not_or.mp hcond).2
    simp only [Option.bind_eq_bind, Option.bind_eq_some_iff] at hv
    obtain ⟨pd, -, hv⟩ := hv
    split at hv
    · cases hv
      exact ⟨h, fun _ => huser⟩
    · obtain ⟨L, hpath, -⟩ := h.consistent.vmLoadPage_path h.alive hv
      exact ⟨(h.path hpath).1, fun _ => huser⟩

/-- All bytes of a range that `is_all_valid_addr` accepts are user memory. -/
theorem Running.isAllValidAddr (h : Running p s)
    (hv : isAllValidAddr p buffer size s = some (ok, t)) :
    Running p t ∧ (ok = true → ∀ j < size.toNat, isUserVaddr (bufferAddr buffer j) = true) := by
  constructor
  · exact loopAll_preserves (P := Running p) (fun _ _ _ _ _ hs hb => (hs.isValidAddr hb).1) h hv
  · rintro rfl j hj
    refine loopAll_forall (P := Running p)
      (Q := fun j _ => isUserVaddr (bufferAddr buffer j) = true)
      (fun _ _ _ _ hs hb => hs.isValidAddr hb) (fun _ _ _ _ _ _ hq _ => hq) h hv j ?_
    simpa [List.mem_range'] using hj

private theorem Running.loadBufferPage (h : Running p s) {r : Replacement}
    (hl : loadBufferPage p w r a s = some (ok, t)) :
    Running p t ∧ (ok = true → isUserVaddr a = true) := by
  simp only [Userprog.loadBufferPage, Option.bind_eq_bind, Option.bind_eq_some_iff] at hl
  obtain ⟨⟨ok', t'⟩, hload, hl⟩ := hl
  cases hl
  obtain ⟨L, hpath, -⟩ := h.consistent.vmLoadPage_path h.alive hload
  refine ⟨(h.path hpath).1, fun hok => ?_⟩
  simp only [Bool.and_eq_true, Option.any_eq_true, Option.bind_eq_some_iff] at hok
  obtain ⟨-, e, ⟨i, hi, he⟩, -⟩ := hok
  obtain ⟨hmem, e', he', hup⟩ := sptFind_some hi
  obtain ⟨e'', he'', -, huser⟩ := (h.path hpath).1.consistent.entry p i hmem
  cases he'.symm.trans he''
  rw [← isUserVaddr_pgRoundDown, ← hup]
  exact huser

private theorem last_mem_pageRange (buffer size : Addr)
    (h : pgRoundDown buffer ≤ pgRoundDown (buffer + size - 1)) :
    pgRoundDown (buffer + size - 1) ∈ pageRange buffer size := by
  simp only [pageRange, if_pos h, List.mem_map, List.mem_range]
  refine ⟨((pgRoundDown (buffer + size - 1)).toNat - (pgRoundDown buffer).toNat) / PGSIZE,
    Nat.lt_succ_self _, BitVec.eq_of_toNat_eq ?_⟩
  have hle : (pgRoundDown buffer).toNat ≤ (pgRoundDown (buffer + size - 1)).toNat := h
  have hlt := (pgRoundDown (buffer + size - 1)).isLt
  rw [BitVec.toNat_add, BitVec.toNat_ofNat]
  simp only [PGSIZE, toNat_pgRoundDown] at *
  omega

/-- All bytes of a range that the page loop accepts are user memory, if the address of its last
byte does not wrap around. -/
theorem Running.loadBuffer (h : Running p s) (hl : loadBuffer p w buffer size s = some (ok, t)) :
    Running p t ∧ (ok = true → buffer.toNat + size.toNat ≤ 2 ^ 32 →
      ∀ j < size.toNat, isUserVaddr (bufferAddr buffer j) = true) := by
  unfold Userprog.loadBuffer at hl
  split at hl
  · next hz =>
    cases hl
    exact ⟨h, fun _ _ j hj => by simp [hz] at hj⟩
  · refine ⟨loopAll_preserves (P := Running p) (fun _ _ _ _ _ hs hb => (hs.loadBufferPage hb).1) h hl,
      ?_⟩
    rintro rfl hwrap j hj
    have hlast : (buffer + size - 1).toNat = buffer.toNat + size.toNat - 1 := by
      have := buffer.isLt
      rw [BitVec.toNat_sub, BitVec.toNat_add]
      simp
      omega
    have hpage := loopAll_forall (P := Running p) (Q := fun a _ => isUserVaddr a = true)
      (fun _ _ _ _ hs hb => hs.loadBufferPage hb) (fun _ _ _ _ _ _ hq _ => hq) h hl _
      (last_mem_pageRange buffer size (by
        rw [BitVec.le_def, toNat_pgRoundDown, toNat_pgRoundDown, hlast]
        omega))
    rw [isUserVaddr_pgRoundDown, isUserVaddr_iff, hlast] at hpage
    rw [isUserVaddr_iff, bufferAddr, BitVec.toNat_add, BitVec.toNat_ofNat]
    omega

/-! ## Transfers -/

/-- An access by the kernel that goes through is to a page with a fitting entry. -/
theorem Running.kernelAccess (h : Running p s) {rounds : Nat}
    (hk : kernelAccess p a w rounds s = some (ok, t)) :
    Running p t ∧ Extends s t ∧ (ok = true → HasEntry w p a t) := by
  induction rounds generalizing s with
  | zero => cases hk
  | succ rounds ih =>
    simp only [Userprog.kernelAccess, Option.bind_eq_bind, Option.bind_eq_some_iff] at hk
    obtain ⟨pd, hpd, hk⟩ := hk
    split at hk
    · next hf =>
      obtain ⟨⟨res, u⟩, hfault, hk⟩ := Option.bind_eq_some_iff.mp hk
      obtain ⟨L, hpath, -⟩ := h.consistent.pageFault_path hpd hf hfault
      obtain ⟨hu, hx⟩ := h.path hpath
      cases res with
      | resume =>
        obtain ⟨ht, hx', hentry⟩ := ih hu hk
        exact ⟨ht, hx.trans hx', hentry⟩
      | exit =>
        cases hk
        exact ⟨hu, hx, by simp⟩
    · next hf =>
      cases hk
      refine ⟨h, .refl _, fun _ => ?_⟩
      have hallowed : (pagedirGetPage pd a ≠ none) ∧ (w = true → mmuWritable pd a = true) := by
        simpa [mmuFaults, kernelFault, Option.isNone_iff_eq_none] using hf
      obtain ⟨i, e, hi, he, hup, hef⟩ := h.consistent.present p pd a hpd hallowed.1
      obtain ⟨f, hef⟩ := Option.ne_none_iff_exists'.mp hef
      obtain ⟨-, fr, pd', -, -, hpd', -, hwr⟩ := h.consistent.resident p i e f hi he hef
      cases hpd.symm.trans hpd'
      refine ⟨i, e, ?_, he, fun hw => ?_⟩
      · rw [sptLookup, ← hup]
        exact h.consistent.sptFind_eq hi he
      · have hsame : pgRoundDown e.upage = pgRoundDown a := by rw [hup, pgRoundDown_pgRoundDown]
        rw [← hwr, mmuWritable_of_same hsame]
        exact hallowed.2 hw

/-- A transfer that has accessed the first `n` bytes of the buffer: those in user memory lie in
pages with a fitting entry. -/
structure Moved (p : Pid) (w : Bool) (buffer : Addr) (n : Nat) (c : Copy) : Prop where
  running : Running p c.vm
  touched : c.touched = (List.range n).map (bufferAddr buffer)
  entry : ∀ a ∈ c.touched, isUserVaddr a = true → HasEntry w p a c.vm

variable {n : Nat} {c c' : Copy}

private theorem Running.moved (h : Running p s) (w : Bool) (buffer : Addr) :
    Moved p w buffer 0 ⟨s, [], []⟩ :=
  ⟨h, rfl, by simp⟩

private theorem Moved.extends (h : Moved p w buffer n c) (hr : Running p t) (hx : Extends c.vm t) :
    Moved p w buffer n { c with vm := t } :=
  ⟨hr, h.touched, fun a ha hu => (h.entry a ha hu).extends hx hr.consistent⟩

private theorem Moved.next (h : Moved p w buffer n c) (hr : Running p t) (hx : Extends c.vm t)
    (ht : c'.touched = c.touched ++ [bufferAddr buffer n]) (hvm : c'.vm = t)
    (he : isUserVaddr (bufferAddr buffer n) = true → HasEntry w p (bufferAddr buffer n) t) :
    Moved p w buffer (n + 1) c' := by
  refine ⟨hvm ▸ hr, by rw [ht, h.touched, List.range_succ, List.map_append]; rfl,
    fun a ha hu => ?_⟩
  rw [ht, List.mem_append, List.mem_singleton] at ha
  rw [hvm]
  rcases ha with ha | rfl
  · exact (h.entry a ha hu).extends hx hr.consistent
  · exact he hu

private theorem Running.mmuStore (h : Running p s) {byte : UInt8}
    (hs : mmuStore p a byte s = some t) : Running p t ∧ Extends s t := by
  have hx := extends_mmuStore hs
  exact ⟨⟨(mmuStore_effect hs).consistent h.consistent, by rw [hx.pagedir]; exact h.alive⟩, hx⟩

private theorem Moved.storeByte (h : Moved p true buffer n c) {byte : UInt8}
    (hs : storeByte p (bufferAddr buffer n) byte c = some (ok, c')) :
    Moved p true buffer (if ok then n + 1 else n) c' := by
  unfold Userprog.storeByte at hs
  split at hs
  · simp only [Option.bind_eq_bind, Option.bind_eq_some_iff] at hs
    obtain ⟨⟨ok', vm⟩, hacc, hs⟩ := hs
    obtain ⟨hr, hx, hentry⟩ := h.running.kernelAccess hacc
    cases ok' with
    | false =>
      cases hs
      exact h.extends hr hx
    | true =>
      obtain ⟨vm', hstore, hs⟩ := Option.bind_eq_some_iff.mp hs
      cases hs
      obtain ⟨hr', hx'⟩ := hr.mmuStore hstore
      exact h.next hr' (hx.trans hx') rfl rfl fun _ => (hentry rfl).extends hx' hr'.consistent
  · next hu =>
    cases hs
    exact h.next h.running (.refl _) rfl rfl fun hu' => absurd hu' hu

private theorem Moved.fetchByte (h : Moved p false buffer n c)
    (hs : fetchByte p (bufferAddr buffer n) c = some (ok, c')) :
    Moved p false buffer (if ok then n + 1 else n) c' := by
  unfold Userprog.fetchByte at hs
  split at hs
  · simp only [Option.bind_eq_bind, Option.bind_eq_some_iff] at hs
    obtain ⟨⟨ok', vm⟩, hacc, hs⟩ := hs
    obtain ⟨hr, hx, hentry⟩ := h.running.kernelAccess hacc
    cases ok' with
    | false =>
      cases hs
      exact h.extends hr hx
    | true =>
      obtain ⟨⟨byte, vm'⟩, hfetch, hs⟩ := Option.bind_eq_some_iff.mp hs
      cases hs
      obtain ⟨hr', hx'⟩ := hr.path (mmuFetch_path hfetch)
      exact h.next hr' (hx.trans hx') rfl rfl fun _ => (hentry rfl).extends hx' hr'.consistent
  · next hu =>
    cases hs
    exact h.next h.running (.refl _) rfl rfl fun hu' => absurd hu' hu

/-- A loop that accesses the buffer byte by byte, from byte `start` on. -/
private theorem Moved.loop {body : Nat → Copy → Option (Bool × Copy)} {start cnt : Nat}
    (hbody : ∀ j c ok c', Moved p w buffer j c → body j c = some (ok, c') →
      Moved p w buffer (if ok then j + 1 else j) c')
    (h : Moved p w buffer start c)
    (hl : loopAll body (List.range' start cnt) c = some (ok, c')) :
    (ok = true → Moved p w buffer (start + cnt) c') ∧
      (ok = false → ∃ n < start + cnt, Moved p w buffer n c') :=
  loopAll_range' (I := fun j c => Moved p w buffer j c)
    (K := fun c => ∃ n < start + cnt, Moved p w buffer n c)
    (fun j c c' _ _ hc hb => hbody j c true c' hc hb)
    (fun j c c' _ hj hc hb => ⟨j, hj, hbody j c false c' hc hb⟩) h hl

private theorem Moved.readChunk {inode : InodeNo} {offset cnt : Nat}
    (h : Moved p true buffer n c) (hc : readChunk p inode buffer offset n cnt c = some (ok, c')) :
    (ok = true → Moved p true buffer (n + cnt) c') ∧
      (ok = false → ∃ m < n + cnt, Moved p true buffer m c') :=
  h.loop (fun _ _ _ _ hm hs => hm.storeByte hs) hc

private theorem Moved.writeChunk {inode : InodeNo} {offset cnt : Nat}
    (h : Moved p false buffer n c) (hc : writeChunk p inode buffer offset n cnt c = some (ok, c')) :
    (ok = true → Moved p false buffer (n + cnt) c') ∧
      (ok = false → ∃ m < n + cnt, Moved p false buffer m c') := by
  simp only [Userprog.writeChunk, Option.bind_eq_bind, Option.bind_eq_some_iff] at hc
  obtain ⟨⟨ok', c1⟩, hloop, hc⟩ := hc
  have hmoved := h.loop (fun _ _ _ _ hm hs => hm.fetchByte hs) hloop
  cases ok' with
  | false =>
    cases hc
    exact hmoved
  | true =>
    cases hc
    refine ⟨fun _ => ?_, by simp⟩
    have hm := hmoved.1 rfl
    obtain ⟨hr, hx⟩ := hm.running.sameMemory (sameMemory_setInode c1.vm inode _)
    exact hm.extends hr hx

/-- A transfer loop accesses no more bytes than it is asked to move, and those it reports. -/
private theorem Moved.transferLoop {length fuel offset total : Nat} {bounce : Bool}
    {move : (offset done cnt : Nat) → Copy → Option (Bool × Copy)} {r : Option Nat}
    (hmove : ∀ offset done cnt c ok c', Moved p w buffer done c →
      move offset done cnt c = some (ok, c') → (ok = true → Moved p w buffer (done + cnt) c') ∧
        (ok = false → ∃ n < done + cnt, Moved p w buffer n c'))
    (h : Moved p w buffer 0 c)
    (hl : transferLoop length bounce move fuel total offset 0 c = some (r, c')) :
    ∃ n ≤ total, Moved p w buffer n c' ∧ ∀ m, r = some m → m = n := by
  have hrule := transferLoop_rule (I := fun j c => j ≤ total ∧ Moved p w buffer j c)
    (K := fun c => ∃ n ≤ total, Moved p w buffer n c)
    (fun k cnt c c' hk hc hm => ⟨by omega, (hmove _ _ _ c true c' hc.2 hm).1 rfl⟩)
    (fun k cnt c c' hk hc hm => by
      obtain ⟨n, hn, hmoved⟩ := (hmove _ _ _ c false c' hc.2 hm).2 rfl
      exact ⟨n, by omega, hmoved⟩)
    ⟨Nat.zero_le _, h⟩ hl
  rcases hrule with ⟨rfl, n, hn, hmoved⟩ | ⟨n, rfl, ⟨hn, hmoved⟩, -⟩
  · exact ⟨n, hn, hmoved, by simp⟩
  · exact ⟨n, hn, hmoved, fun m hm => (Option.some.inj hm).symm⟩

private theorem Moved.advance {f : FileAddr} {r r' : Option Nat} {n : Nat}
    (h : Moved p w buffer n c) (hn : ∀ m, r = some m → m = n)
    (ha : advance f (r, c) = some (r', c')) :
    Moved p w buffer n c' ∧ ∀ m, r' = some m → m = n := by
  unfold Userprog.advance at ha
  split at ha
  · next heq =>
    cases heq
    cases ha
    exact ⟨h, hn⟩
  · next m c1 heq =>
    cases heq
    obtain ⟨file, -, ha⟩ := Option.map_eq_some_iff.mp ha
    cases ha
    obtain ⟨hr, hx⟩ := h.running.sameMemory (sameMemory_setFile c.vm f _)
    exact ⟨h.extends hr hx, hn⟩

/-- What `file_read` accesses: the first bytes of the buffer, and as many as it reports. -/
theorem Running.fileReadUser (h : Running p s) {f : FileAddr} {r : Option Nat}
    (hf : fileReadUser p f buffer size s = some (r, c)) :
    ∃ n ≤ offT size, Moved p true buffer n c ∧ ∀ m, r = some m → m = n := by
  simp only [Userprog.fileReadUser, Option.bind_eq_bind, Option.bind_eq_some_iff] at hf
  obtain ⟨file, -, ⟨r', c'⟩, hloop, hadv⟩ := hf
  have hstart := ((h.sameMemory (sameMemory_takeHeap s)).1.moved true buffer)
  obtain ⟨n, hn, hmoved, hres⟩ := hstart.transferLoop (fun _ _ _ _ _ _ hm hc => hm.readChunk hc) hloop
  exact ⟨n, hn, hmoved.advance hres hadv⟩

private theorem Running.fileWriteUser (h : Running p s) {f : FileAddr} {r : Option Nat}
    (hf : fileWriteUser p f buffer size s = some (r, c)) :
    ∃ n ≤ offT size, Moved p false buffer n c ∧ ∀ m, r = some m → m = n := by
  simp only [Userprog.fileWriteUser, Option.bind_eq_bind, Option.bind_eq_some_iff] at hf
  obtain ⟨file, -, hf⟩ := hf
  split at hf
  · exact ⟨0, Nat.zero_le _, (h.moved false buffer).advance (by simp) hf⟩
  · obtain ⟨⟨r', c'⟩, hloop, hadv⟩ := Option.bind_eq_some_iff.mp hf
    have hstart := ((h.sameMemory (sameMemory_takeHeap s)).1.moved false buffer)
    obtain ⟨n, hn, hmoved, hres⟩ :=
      hstart.transferLoop (fun _ _ _ _ _ _ hm hc => hm.writeChunk hc) hloop
    exact ⟨n, hn, hmoved.advance hres hadv⟩

/-! ## The calls -/

/-- The transfer of a call has stayed in user pages with a fitting entry. -/
def Confined (p : Pid) (w : Bool) (o : Outcome) : Prop :=
  ∀ a ∈ o.touched, isUserVaddr a = true ∧ HasEntry w p a o.vm

/-- The buffer begins in user memory and runs past the end of the address space, with a size
that is positive as an `off_t`. -/
def Overruns (buffer size : Addr) : Prop :=
  isUserVaddr buffer = true ∧ 2 ^ 32 < buffer.toNat + size.toNat ∧ size.toNat < 2 ^ 31

instance (buffer size : Addr) : Decidable (Overruns buffer size) := by
  unfold Overruns
  infer_instance

private theorem offT_le (size : Addr) : offT size ≤ size.toNat := by
  unfold offT
  split <;> omega

private theorem confined_of_nothing {r : SyscallResult} {out : List UInt8} :
    Confined p w ⟨r, [], out, s⟩ := by
  simp [Confined]

/-- A transfer is confined if the bytes that it accesses are user memory. -/
private theorem Moved.confined (h : Moved p w buffer n c)
    (hu : ∀ j < n, isUserVaddr (bufferAddr buffer j) = true) (hr : Running p t)
    (hx : Extends c.vm t) {r : SyscallResult} {out : List UInt8} :
    Confined p w ⟨r, c.touched, out, t⟩ := by
  intro a ha
  have hua : isUserVaddr a = true := by
    rw [h.touched] at ha
    obtain ⟨j, hj, rfl⟩ := List.mem_map.mp ha
    exact hu j (List.mem_range.mp hj)
  exact ⟨hua, (h.entry a ha hua).extends hx hr.consistent⟩

private theorem Moved.finishTransfer (h : Moved p w buffer n c)
    (hu : ∀ j < n, isUserVaddr (bufferAddr buffer j) = true) (r : Option Nat) :
    Confined p w (finishTransfer p buffer size (r, c)) := by
  cases r with
  | none => exact h.confined hu h.running (.refl _)
  | some m =>
    obtain ⟨hr, hx⟩ := h.running.path (vmUnpinRange_path .idle p buffer size c.vm)
    exact h.confined hu hr hx

/-- `syscall_read` stays in its buffer unless the buffer runs past the address space. -/
theorem Running.syscallRead (h : Running p s) {fd : Int} (hfd : fd ≠ STDIN_FILENO)
    (hov : ¬ Overruns buffer size) {input : Nat → UInt8} {o : Outcome}
    (hs : syscallRead p fd buffer size input s = some o) : Confined p true o := by
  simp only [Userprog.syscallRead, Option.bind_eq_bind, Option.bind_eq_some_iff] at hs
  obtain ⟨⟨ok, s1⟩, hvalid, hs⟩ := hs
  obtain ⟨h1, huser⟩ := h.isValidAddr hvalid
  cases ok with
  | false =>
    cases hs
    exact confined_of_nothing
  | true =>
    simp only [Bool.not_true, Bool.false_eq_true, if_false, if_neg hfd,
      Option.bind_eq_some_iff] at hs
    obtain ⟨⟨ok, s2⟩, hload, hs⟩ := hs
    obtain ⟨h2, hbytes⟩ := h1.loadBuffer hload
    cases ok with
    | false =>
      cases hs
      exact confined_of_nothing
    | true =>
      simp only [Bool.not_true, Bool.false_eq_true, if_false] at hs
      split at hs
      · cases hs
        exact confined_of_nothing
      · obtain ⟨⟨r, c⟩, hread, rfl⟩ := Option.map_eq_some_iff.mp hs
        obtain ⟨n, hn, hmoved, -⟩ := h2.fileReadUser hread
        refine hmoved.finishTransfer (fun j hj => ?_) r
        by_cases hsize : size.toNat < 2 ^ 31
        · have hwrap : buffer.toNat + size.toNat ≤ 2 ^ 32 := by
            by_contra hc
            exact hov ⟨huser rfl, by omega, hsize⟩
          exact hbytes rfl hwrap j (by have := offT_le size; omega)
        · rw [offT, if_neg hsize] at hn
          omega

private theorem Running.syscallWrite (h : Running p s) {fd : Int} {o : Outcome}
    (hs : syscallWrite p fd buffer size s = some o) : Confined p false o := by
  simp only [Userprog.syscallWrite, Option.bind_eq_bind, Option.bind_eq_some_iff] at hs
  obtain ⟨⟨ok, s1⟩, hvalid, hs⟩ := hs
  obtain ⟨h1, huser⟩ := h.isAllValidAddr hvalid
  cases ok with
  | false =>
    cases hs
    exact confined_of_nothing
  | true =>
    simp only [Bool.not_true, Bool.false_eq_true, if_false, Option.bind_eq_some_iff] at hs
    obtain ⟨⟨ok, s2⟩, hload, hs⟩ := hs
    obtain ⟨h2, -⟩ := h1.loadBuffer hload
    cases ok with
    | false =>
      cases hs
      exact confined_of_nothing
    | true =>
      simp only [Bool.not_true, Bool.false_eq_true, if_false] at hs
      split at hs
      · simp only [writeStdout, Option.bind_eq_bind, Option.bind_eq_some_iff] at hs
        obtain ⟨⟨ok, c⟩, hloop, hs⟩ := hs
        cases hs
        have hmoved := (h2.moved false buffer).loop (fun _ _ _ _ hm hf => hm.fetchByte hf) hloop
        cases ok with
        | true =>
          have hm := hmoved.1 rfl
          exact hm.confined (fun j hj => huser rfl j (by omega)) hm.running (.refl _)
        | false =>
          obtain ⟨n, hn, hm⟩ := hmoved.2 rfl
          exact hm.confined (fun j hj => huser rfl j (by omega)) hm.running (.refl _)
      · split at hs
        · cases hs
          exact confined_of_nothing
        · obtain ⟨⟨r, c⟩, hwrite, rfl⟩ := Option.map_eq_some_iff.mp hs
          obtain ⟨n, hn, hmoved, -⟩ := h2.fileWriteUser hwrite
          have hle := offT_le size
          exact hmoved.finishTransfer (fun j hj => huser rfl j (by omega)) r

/-! ## A read that leaves user memory -/

/-- The number of pages from `base` to `PHYS_BASE`. -/
def pagesAbove (base : Addr) : Nat := (0xc0000000 - base.toNat) / 4096

/-- Page `i` from `base` on. -/
def pageAt (base : Addr) (i : Nat) : Addr := base + BitVec.ofNat 32 (i * 4096)

/-- A machine whose process 0 has all pages from `base` to `PHYS_BASE` resident and writable,
and a file of the given length open as descriptor 2. -/
def fullMachine (base : Addr) (length : Nat) : VmState where
  spte := fun i => if i < pagesAbove base then
    some { stackSpte 0 (pageAt base i) with frame := some i } else none
  frame := fun f => if f < pagesAbove base then some ⟨f, some f, false⟩ else none
  frameTable := List.range (pagesAbove base)
  clockHand := .null
  spt := fun p => if p = 0 then List.range (pagesAbove base) else []
  pagedir := fun p => if p = 0 then some
    { table := fun _ => true
      pte := fun page => if base ≤ page ∧ isUserVaddr page = true then
        ⟨true, (page.toNat - base.toNat) / 4096, true, false, false⟩ else Pte.zero } else none
  userEsp := fun _ => 0
  mmapList := fun _ => []
  nextMapid := fun _ => 1
  fdTable := fun _ fd => if fd = 2 then some 0 else none
  executable := fun _ => none
  file := fun f => if f = 0 then some ⟨0, 0, false⟩ else none
  inode := fun _ => ⟨length, fun _ => 0, 1, 0⟩
  mem := fun _ _ => 0
  userPool := List.replicate (pagesAbove base) true
  swapBitmap := []
  swapDevice := fun _ _ => 0
  heap := fun n => some n
  swapLog := []

section FullMachine

variable {base : Addr} {length : Nat}

private theorem toNat_pageAt (hb : base.toNat % 4096 = 0) {i : Nat} (hi : i < pagesAbove base) :
    (pageAt base i).toNat = base.toNat + i * 4096 ∧ (pageAt base i).toNat + 4096 ≤ 0xc0000000 := by
  have := base.isLt
  unfold pagesAbove at hi
  rw [pageAt, BitVec.toNat_add, BitVec.toNat_ofNat]
  omega

private theorem pageAt_props (hb : base.toNat % 4096 = 0) {i : Nat} (hi : i < pagesAbove base) :
    pgOfs (pageAt base i) = 0 ∧ isUserVaddr (pageAt base i) = true ∧
      base ≤ pgRoundDown (pageAt base i) ∧
      ((pgRoundDown (pageAt base i)).toNat - base.toNat) / 4096 = i := by
  obtain ⟨hn, hle⟩ := toNat_pageAt hb hi
  refine ⟨(pgOfs_eq_zero_iff _).mpr (by omega), (isUserVaddr_iff _).mpr (by omega), ?_, ?_⟩
  · rw [BitVec.le_def, toNat_pgRoundDown]
    omega
  · rw [toNat_pgRoundDown]
    omega

private theorem pageAt_pgRoundDown (hb : base.toNat % 4096 = 0) {u : Addr}
    (hu : base ≤ pgRoundDown u) (huser : isUserVaddr u = true) :
    ((pgRoundDown u).toNat - base.toNat) / 4096 < pagesAbove base ∧
      pageAt base (((pgRoundDown u).toNat - base.toNat) / 4096) = pgRoundDown u := by
  have hle : base.toNat ≤ (pgRoundDown u).toNat := hu
  have hlt := (isUserVaddr_iff u).mp huser
  have hr := toNat_pgRoundDown u
  have hi : ((pgRoundDown u).toNat - base.toNat) / 4096 < pagesAbove base := by
    unfold pagesAbove
    omega
  refine ⟨hi, BitVec.eq_of_toNat_eq ?_⟩
  rw [(toNat_pageAt hb hi).1]
  omega

private theorem pagedirGetPage_full (base : Addr) (length : Nat) {pd : PageDir}
    (hpd : (fullMachine base length).pagedir 0 = some pd) (u : Addr) :
    pagedirGetPage pd u = (if base ≤ pgRoundDown u ∧ isUserVaddr u = true then
      some (((pgRoundDown u).toNat - base.toNat) / 4096) else none) ∧
    mmuWritable pd u = decide (base ≤ pgRoundDown u ∧ isUserVaddr u = true) ∧
    pagedirIsDirty pd u = false := by
  obtain rfl := Option.some.inj hpd
  simp only [pagedirGetPage, mmuWritable, pagedirIsDirty, lookupPage, if_true,
    isUserVaddr_pgRoundDown]
  split <;> simp_all [Pte.zero]

private theorem spte_full {i : SpteAddr} {e : SptEntry} :
    (fullMachine base length).spte i = some e ↔ i < pagesAbove base ∧
      { stackSpte 0 (pageAt base i) with frame := some i } = e := by
  simp only [fullMachine]
  split <;> simp_all

private theorem frame_full {f : FrameAddr} {fr : Frame} :
    (fullMachine base length).frame f = some fr ↔ f < pagesAbove base ∧ ⟨f, some f, false⟩ = fr := by
  simp only [fullMachine]
  split <;> simp_all

private theorem mem_spt_full {p : Pid} {i : SpteAddr} :
    i ∈ (fullMachine base length).spt p ↔ p = 0 ∧ i < pagesAbove base := by
  by_cases hp : p = 0 <;> simp [fullMachine, hp]

private theorem pagedir_full {p : Pid} {pd : PageDir}
    (h : (fullMachine base length).pagedir p = some pd) : p = 0 := by
  by_contra hp
  simp [fullMachine, hp] at h

private theorem running_fullMachine (hb : base.toNat % 4096 = 0) :
    Running 0 (fullMachine base length) := by
  refine ⟨?_, rfl⟩
  constructor
  case table_nodup => exact List.nodup_range
  case mem_table =>
    intro f
    by_cases hf : f < pagesAbove base <;> simp [fullMachine, hf]
  case kpage_inj => grind [frame_full]
  case pool =>
    intro k
    have htest : bitmapTest (fullMachine base length).userPool k = decide (k < pagesAbove base) := by
      by_cases hk : k < pagesAbove base <;> simp [bitmapTest, fullMachine, hk]
    simp only [frame_full, reduceCtorEq, or_false, htest, decide_eq_true_eq]
    exact ⟨fun hk => ⟨k, _, ⟨hk, rfl⟩, rfl⟩, fun ⟨f, fr, ⟨hf, hfr⟩, hk⟩ => by subst hfr; exact hk ▸ hf⟩
  case flight_page => simp
  case flight_frame => simp
  case linked =>
    intro f fr hf _
    obtain ⟨hlt, rfl⟩ := frame_full.mp hf
    exact ⟨0, f, _, rfl, mem_spt_full.mpr ⟨rfl, hlt⟩, spte_full.mpr ⟨hlt, rfl⟩, rfl⟩
  case resident =>
    intro p i e f hi he hf
    obtain ⟨hlt, rfl⟩ := spte_full.mp he
    obtain ⟨rfl, -⟩ := mem_spt_full.mp hi
    cases hf
    obtain ⟨-, huser, hle, hidx⟩ := pageAt_props hb hlt
    refine ⟨rfl, _, _, frame_full.mpr ⟨hlt, rfl⟩, rfl, rfl, ?_⟩
    obtain ⟨hget, hw, -⟩ := pagedirGetPage_full base length rfl (pageAt base i)
    exact ⟨by rw [stackSpte, hget, if_pos ⟨hle, huser⟩, hidx],
      by rw [stackSpte, hw, decide_eq_true ⟨hle, huser⟩]⟩
  case present =>
    intro p pd u hpd hget
    obtain rfl := pagedir_full hpd
    rw [(pagedirGetPage_full base length hpd u).1] at hget
    have hu : base ≤ pgRoundDown u ∧ isUserVaddr u = true := by
      by_contra hn
      exact hget (if_neg hn)
    obtain ⟨hi, hpage⟩ := pageAt_pgRoundDown hb hu.1 hu.2
    exact ⟨_, _, mem_spt_full.mpr ⟨rfl, hi⟩, spte_full.mpr ⟨hi, rfl⟩, hpage, by simp⟩
  case dirty_writable =>
    intro p pd u hpd hget hd
    obtain rfl := pagedir_full hpd
    rw [(pagedirGetPage_full base length hpd u).2.2] at hd
    cases hd
  case entry =>
    intro p i hi
    obtain ⟨-, hlt⟩ := mem_spt_full.mp hi
    obtain ⟨hofs, huser, -⟩ := pageAt_props hb hlt
    exact ⟨_, spte_full.mpr ⟨hlt, rfl⟩, hofs, huser⟩
  case owned =>
    intro i e he
    exact ⟨0, mem_spt_full.mpr ⟨rfl, (spte_full.mp he).1⟩⟩
  case spt_nodup =>
    intro p
    by_cases hp : p = 0 <;> simp [fullMachine, hp, List.nodup_range]
  case spt_disjoint =>
    intro p q i hp hq
    exact (mem_spt_full.mp hp).1.trans (mem_spt_full.mp hq).1.symm
  case upage_inj =>
    intro p i j e e' _ _ he he' hup
    obtain ⟨hi, rfl⟩ := spte_full.mp he
    obtain ⟨hj, rfl⟩ := spte_full.mp he'
    have hij := congrArg BitVec.toNat (show pageAt base i = pageAt base j from hup)
    rw [(toNat_pageAt hb hi).1, (toNat_pageAt hb hj).1] at hij
    exact Nat.eq_of_mul_eq_mul_right (by decide) (Nat.add_left_cancel hij)
  case live =>
    intro p i hi
    obtain ⟨rfl, -⟩ := mem_spt_full.mp hi
    rfl
  case swapped =>
    intro p i e hi he ht
    obtain ⟨-, rfl⟩ := spte_full.mp he
    cases ht

/-- The user pages from `base` on can be stored to, and file 0 is open. -/
private def Stores (base : Addr) (c : Copy) : Prop :=
  (c.vm.file 0).isSome ∧ ∃ pd, c.vm.pagedir 0 = some pd ∧
    ∀ u, base ≤ u → isUserVaddr u = true → pagedirGetPage pd u ≠ none ∧ mmuWritable pd u = true

private theorem Stores.storeByte (h : Stores base c) (byte : UInt8)
    (ha : isUserVaddr a = true → base ≤ a) :
    ∃ c', storeByte 0 a byte c = some (true, c') ∧ Stores base c' := by
  obtain ⟨hf, pd, hpd, hall⟩ := h
  by_cases hu : isUserVaddr a = true
  · obtain ⟨hget, hw⟩ := hall a (ha hu) hu
    obtain ⟨k, hk⟩ := Option.ne_none_iff_exists'.mp hget
    have hacc : Userprog.kernelAccess 0 a true 2 c.vm = some (true, c.vm) := by
      simp [Userprog.kernelAccess, hpd, mmuFaults, kernelFault, hk, hw]
    simp only [Userprog.storeByte, hu, if_true, hacc, Option.bind_eq_bind, Option.bind_some,
      Vm.mmuStore, hpd, hk, hw]
    refine ⟨_, rfl, hf, mmuAccess pd a true, by simp [VmState.setPagedir, VmState.setMem],
      fun u hb hu' => ?_⟩
    rw [pagedirGetPage_mmuAccess, mmuWritable_mmuAccess]
    exact hall u hb hu'
  · exact ⟨{ c with touched := c.touched ++ [a] }, if_neg hu, hf, pd, hpd, hall⟩

private theorem stores_fullMachine (base : Addr) (length : Nat) (hb : base.toNat % 4096 = 0) :
    Stores base ⟨(fullMachine base length).takeHeap.2, [], []⟩ := by
  refine ⟨rfl, _, rfl, fun u hu huser => ?_⟩
  obtain ⟨hget, hw, -⟩ := pagedirGetPage_full base length rfl u
  have hle : base ≤ pgRoundDown u := by
    have : base.toNat ≤ u.toNat := hu
    rw [BitVec.le_def, toNat_pgRoundDown]
    omega
  rw [hget, hw, if_pos ⟨hle, huser⟩]
  exact ⟨by simp, decide_eq_true ⟨hle, huser⟩⟩

private theorem loadBuffer_of_overruns (hov : Overruns buffer size) :
    loadBuffer p w buffer size s = some (true, s) := by
  obtain ⟨huser, hwrap, hsize⟩ := hov
  have hlt := (isUserVaddr_iff buffer).mp huser
  have hlast : (buffer + size - 1).toNat = buffer.toNat + size.toNat - 1 - 2 ^ 32 := by
    rw [BitVec.toNat_sub, BitVec.toNat_add]
    simp
    omega
  have hz : size ≠ 0 := by
    rintro rfl
    simp at hwrap
    omega
  have hrange : pageRange buffer size = [] := by
    rw [pageRange, if_neg]
    rw [BitVec.le_def, toNat_pgRoundDown, toNat_pgRoundDown, hlast]
    omega
  rw [Userprog.loadBuffer, if_neg hz, hrange]
  rfl

/-- The machine for a buffer, with a file one byte longer than the user memory after it. -/
private def overrunMachine (buffer : Addr) : VmState :=
  fullMachine (pgRoundDown buffer) (0xc0000000 - buffer.toNat + 1)

private theorem stores_overrunMachine (buffer : Addr) :
    Stores (pgRoundDown buffer) ⟨(overrunMachine buffer).takeHeap.2, [], []⟩ :=
  stores_fullMachine _ _ (by rw [toNat_pgRoundDown]; omega)

private theorem isValidAddr_overrunMachine (hov : Overruns buffer size) :
    isValidAddr 0 buffer (overrunMachine buffer) = some (true, overrunMachine buffer) := by
  obtain ⟨huser, hwrap, hsize⟩ := hov
  obtain ⟨-, pd, hpd, hall⟩ := stores_overrunMachine buffer
  have hget := (hall buffer (by rw [BitVec.le_def, toNat_pgRoundDown]; omega) huser).1
  have hne : buffer ≠ 0 := by
    rintro rfl
    simp at hwrap
    omega
  rw [Userprog.isValidAddr, if_neg (not_or.mpr ⟨hne, by simp [huser]⟩)]
  simp only [show (overrunMachine buffer).pagedir 0 = some pd from hpd, Option.bind_eq_bind,
    Option.bind_some]
  rw [if_pos (Option.isSome_iff_ne_none.mpr hget)]

private theorem fileReadUser_overrunMachine (hov : Overruns buffer size) :
    ∃ c, fileReadUser 0 0 buffer size (overrunMachine buffer) =
      some (some (0xc0000000 - buffer.toNat + 1), c) := by
  obtain ⟨huser, hwrap, hsize⟩ := hov
  have hlt := (isUserVaddr_iff buffer).mp huser
  have hoff : offT size = size.toNat := if_pos hsize
  obtain ⟨c, hloop, hfile, -⟩ : ∃ c, transferLoop (0xc0000000 - buffer.toNat + 1) true
      (readChunk 0 0 buffer) (offT size) (offT size) 0 0 ⟨(overrunMachine buffer).takeHeap.2, [], []⟩ =
        some (some (transferCount (0xc0000000 - buffer.toNat + 1) true (offT size) (offT size) 0), c) ∧
      Stores (pgRoundDown buffer) c := by
    refine transferLoop_some (fun k cnt c hk hc => loopAll_true (fun j hj c hc => ?_) hc)
      (stores_overrunMachine buffer)
    refine hc.storeByte _ fun _ => ?_
    have hj' : j < k + cnt := by simpa using (List.mem_range'_1.mp hj).2
    rw [BitVec.le_def, bufferAddr, toNat_pgRoundDown, BitVec.toNat_add, BitVec.toNat_ofNat]
    omega
  have hcount : min (offT size) (0xc0000000 - buffer.toNat + 1 - 0) =
      0xc0000000 - buffer.toNat + 1 := by omega
  rw [transferCount_bounce _ _ _ _ le_rfl, hcount] at hloop
  obtain ⟨file, hfile⟩ := Option.isSome_iff_exists.mp hfile
  refine ⟨{ c with
    vm := setFile c.vm 0 { file with pos := file.pos + (0xc0000000 - buffer.toNat + 1) } }, ?_⟩
  rw [Userprog.fileReadUser]
  refine Option.bind_eq_some_iff.mpr ⟨⟨0, 0, false⟩, rfl, Option.bind_eq_some_iff.mpr
    ⟨_, hloop, ?_⟩⟩
  simp only [Userprog.advance, hfile, Option.map_some]

/-- Reading a file that reaches to `PHYS_BASE` on the machine stores there. -/
private theorem overrunMachine_touches (hov : Overruns buffer size) (input : Nat → UInt8) :
    ∃ o, syscallRead 0 2 buffer size input (overrunMachine buffer) = some o ∧
      PHYS_BASE ∈ o.touched := by
  obtain ⟨c, hread⟩ := fileReadUser_overrunMachine hov
  have hrun : Running 0 (overrunMachine buffer) :=
    running_fullMachine (by rw [toNat_pgRoundDown]; omega)
  obtain ⟨n, -, hmoved, hn⟩ := hrun.fileReadUser hread
  refine ⟨finishTransfer 0 buffer size (some (0xc0000000 - buffer.toNat + 1), c), ?_, ?_⟩
  · simp only [Userprog.syscallRead, isValidAddr_overrunMachine hov, Option.bind_eq_bind,
      Option.bind_some, Bool.not_true, Bool.false_eq_true, if_false, loadBuffer_of_overruns hov,
      show fdFile (overrunMachine buffer) 0 2 = some 0 from rfl, hread, Option.map_some]
    rfl
  · have hlt := (isUserVaddr_iff buffer).mp hov.1
    rw [Userprog.finishTransfer, hmoved.touched, ← hn _ rfl]
    refine List.mem_map.mpr ⟨0xc0000000 - buffer.toNat, List.mem_range.mpr (by omega), ?_⟩
    apply BitVec.eq_of_toNat_eq
    rw [bufferAddr, BitVec.toNat_add, BitVec.toNat_ofNat, PHYS_BASE]
    simp
    omega

end FullMachine

/-- The reads and writes of a buffer are confined, in every state and for every descriptor, if and
only if the buffer does not run past the end of the address space with a size that is positive as
an `off_t`. -/
theorem transfers_confined_iff (buffer size : Addr) :
    ((∀ s p fd input o, Running p s → fd ≠ STDIN_FILENO →
        syscallRead p fd buffer size input s = some o → Confined p true o) ∧
      ∀ s p fd o, Running p s → syscallWrite p fd buffer size s = some o → Confined p false o) ↔
    ¬ Overruns buffer size := by
  constructor
  · rintro ⟨hread, -⟩ hov
    obtain ⟨o, ho, htouched⟩ := overrunMachine_touches hov fun _ => 0
    have hconf := hread _ _ _ _ _ (running_fullMachine (by rw [toNat_pgRoundDown]; omega))
      (by decide) ho
    exact absurd (hconf _ htouched).1 (by decide)
  · intro hov
    exact ⟨fun _ _ _ _ _ h hfd hs => h.syscallRead hfd hov hs, fun _ _ _ _ h hs => h.syscallWrite hs⟩

/-- A process reads a file into the last byte of its stack page, with a size that wraps around:
the rest of the file goes to the kernel. -/
theorem read_overruns_into_kernel :
    ∃ s o, run Vm.step (smallMachine 2 4) [.exec 0 (some 0) .clock, .call 0 (.openFile (some 0))] =
        some s ∧ syscallRead 0 2 0xbfffffff 0x40000002 (fun _ => 0) s = some o ∧
      o.result = .ret 52 ∧ 0xc0000000#32 ∈ o.touched ∧ ¬ Confined 0 true o := by
  obtain ⟨o, ho⟩ := Option.isSome_iff_exists.mp
    (show ((run Vm.step (smallMachine 2 4) [.exec 0 (some 0) .clock,
        .call 0 (.openFile (some 0))]).bind fun s =>
      (syscallRead 0 2 0xbfffffff 0x40000002 (fun _ => 0) s).bind fun o =>
        if o.result = .ret 52 ∧ 0xc0000000#32 ∈ o.touched then some o else none).isSome = true by
      decide +kernel)
  obtain ⟨s, hs, o, hread, hcond⟩ := by simpa only [Option.bind_eq_some_iff] using ho
  split at hcond
  · next hc => exact ⟨s, o, hs, hread, hc.1, hc.2, fun h => absurd (h _ hc.2).1 (by decide)⟩
  · cases hcond

end Pintos.Userprog

import Pintos.Vm.LoadPaths
import Pintos.Vm.ReleasePaths

/-!
# Every step is a path of effects

One lemma says what any step of the memory system can do; the agreement of the frame table,
the supplemental page tables and the page directories in every reachable state follows.
-/

namespace Pintos.Vm

open Pintos.Base Pintos.Threads Pintos.Userprog Pintos.Lib Pintos.Filesys

variable {s t u : VmState}

/-- The slots that a step may take from their owner without passing them to `swap_free`: those of
entries that it ends, and those of all pages that can be evicted, whether or not it evicts one. -/
def GivesUp (s : VmState) : Op → Nat → Prop
  | .exec _ _ _, n => Displaces s n
  | .call _ (.vmLoadPage _ _ _), n => Displaces s n
  | .call p (.fault flt _ r), n => Displaces s n ∨
      ∃ u, pageFault p flt r s = some (.exit, u) ∧ ∃ i ∈ u.spt p, slotOf u.swapLog i = some n
  | .call p (.mmapUnmap mapid), n => ∃ i e, i ∈ s.spt p ∧ s.spte i = some e ∧
      (Forgets e ∧ Maps s p mapid e) ∧ slotOf s.swapLog i = some n
  | .call p .exit, n => ∃ i ∈ s.spt p, slotOf s.swapLog i = some n
  | _, _ => False

private theorem sameMemory_syscallOpen {p : Pid} {inode : Option InodeNo}
    (h : syscallOpen p inode s = some t) : SameMemory s t := by
  have hopen := sameMemory_filesysOpen inode s
  unfold syscallOpen at h
  split at h
  · next heq =>
    cases h
    rwa [heq] at hopen
  · next heq =>
    rw [heq] at hopen
    split at h
    · cases h
      exact { hopen with }
    · exact hopen.trans (sameMemory_fileClose h)

private theorem sameMemory_syscallClose {p : Pid} {fd : Int} (h : syscallClose p fd s = some t) :
    SameMemory s t := by
  unfold syscallClose at h
  split at h
  · split at h
    · have hm := sameMemory_fileClose h
      exact { hm with }
    · cases h
      exact .refl _
  · cases h
    exact .refl _

theorem mmuStore_effect {p : Pid} {uaddr : Addr} {byte : UInt8}
    (h : mmuStore p uaddr byte s = some t) : Effect .idle s [] .idle t := by
  simp only [mmuStore, Option.bind_eq_bind, Option.bind_eq_some_iff] at h
  obtain ⟨pd, hpd, k, hk, h⟩ := h
  split at h
  · next hw =>
    cases h
    exact .store hpd hk hw (.refl _)
  · cases h

/-- A store changes no entry and no table. -/
theorem extends_mmuStore {p : Pid} {uaddr : Addr} {byte : UInt8}
    (h : mmuStore p uaddr byte s = some t) : Extends s t := by
  simp only [mmuStore, Option.bind_eq_bind, Option.bind_eq_some_iff] at h
  obtain ⟨pd, hpd, k, -, h⟩ := h
  split at h
  · cases h
    refine ⟨fun _ _ hi => hi, fun _ e he => ⟨e, he, rfl, rfl, rfl⟩, fun q => ?_⟩
    by_cases hq : q = p <;> simp [VmState.setPagedir, VmState.setMem, hq, hpd]
  · cases h

theorem mmuFetch_path {p : Pid} {uaddr : Addr} {byte : UInt8}
    (h : mmuFetch p uaddr s = some (byte, t)) : PagePath (.idle, s) [] (.idle, t) := by
  simp only [mmuFetch, Option.bind_eq_bind, Option.bind_eq_some_iff] at h
  obtain ⟨pd, hpd, k, hk, h⟩ := h
  cases h
  refine (PageEffect.touch hpd ?_ (.refl _)).path (.of_eq rfl rfl rfl rfl rfl rfl)
  exact ⟨(pagedirGetPage_mmuAccess pd uaddr · false), fun va => by
      rw [pagedirIsDirty_mmuAccess _ _ _ _ (by simp [hk])]; simp,
    (mmuWritable_mmuAccess pd uaddr · false), rfl⟩

private theorem Consistent.faultStep_path (h : Consistent .idle s) {p : Pid} {flt : Fault}
    {write : Bool} {r : Replacement} (hf : faultStep p flt write r s = some t) :
    ∃ L, EffectPath (.idle, s) L (.idle, t) ∧
      ∀ n ∈ L, GivesUp s (.call p (.fault flt write r)) n := by
  simp only [faultStep, Option.bind_eq_bind, Option.bind_eq_some_iff] at hf
  obtain ⟨pd, hpd, hf⟩ := hf
  split at hf
  · next hm =>
    rw [Option.bind_eq_some_iff] at hf
    obtain ⟨⟨res, u⟩, hfault, hres⟩ := hf
    obtain ⟨L, hpath, hL⟩ := h.pageFault_path hpd hm hfault
    cases res with
    | resume =>
      cases hres
      exact ⟨L, hpath.effectPath, fun n hn => .inl (hL n hn)⟩
    | exit =>
      obtain ⟨L', hpath', hL'⟩ := ((hpath.consistent h).exitProcess_released hres).1.path
      refine ⟨L' ++ L, hpath.effectPath.trans hpath', fun n hn => ?_⟩
      rcases List.mem_append.mp hn with hn | hn
      · obtain ⟨i, e, hi, -, -, hslot⟩ := hL' n hn
        exact .inr ⟨u, hfault, i, hi, hslot⟩
      · exact .inl (hL n hn)
  · cases hf

private theorem SameMemory.call_path {p : Pid} {c : Call} (h : SameMemory s t) :
    ∃ L, EffectPath (.idle, s) L (.idle, t) ∧ ∀ n ∈ L, GivesUp s (.call p c) n :=
  ⟨[], h.path .idle, by simp⟩

private theorem PagePath.call_path {p : Pid} {c : Call} (h : PagePath (.idle, s) [] (.idle, t)) :
    ∃ L, EffectPath (.idle, s) L (.idle, t) ∧ ∀ n ∈ L, GivesUp s (.call p c) n :=
  ⟨[], h.effectPath, by simp⟩

private theorem Consistent.call_path (h : Consistent .idle s) {p : Pid} {c : Call}
    (hp : (s.pagedir p).isSome) (hc : call p c s = some t) :
    ∃ L, EffectPath (.idle, s) L (.idle, t) ∧ ∀ n ∈ L, GivesUp s (.call p c) n := by
  cases c with
  | enter esp =>
    cases hc
    exact SameMemory.call_path ⟨rfl, rfl, rfl, rfl, rfl, rfl, rfl, rfl, rfl, rfl⟩
  | openFile inode => exact (sameMemory_syscallOpen hc).call_path
  | close fd => exact (sameMemory_syscallClose hc).call_path
  | store uaddr byte => exact ⟨[], (mmuStore_effect hc).path, by simp⟩
  | fetch uaddr =>
    obtain ⟨⟨byte, _⟩, hfetch, rfl⟩ := Option.map_eq_some_iff.mp hc
    exact (mmuFetch_path hfetch).call_path
  | fault flt write r => exact h.faultStep_path hc
  | vmLoadPage upage pin r =>
    obtain ⟨⟨ok, _⟩, hload, rfl⟩ := Option.map_eq_some_iff.mp hc
    obtain ⟨L, hpath, hL, -⟩ := h.vmLoadPage_path hp hload
    exact ⟨L, hpath.effectPath, hL⟩
  | vmUnpinRange addr size =>
    cases hc
    exact (vmUnpinRange_path .idle p addr size s).call_path
  | mmapMap fd addr =>
    obtain ⟨⟨o, _⟩, hmap, rfl⟩ := Option.map_eq_some_iff.mp hc
    exact ⟨[], h.mmapMap_path hp hmap, by simp⟩
  | mmapUnmap mapid => exact (h.mmapUnmap_released hc).path
  | exit =>
    obtain ⟨L, hpath, hL⟩ := (h.exitProcess_released hc).1.path
    refine ⟨L, hpath, fun n hn => ?_⟩
    obtain ⟨i, e, hi, -, -, hslot⟩ := hL n hn
    exact ⟨i, hi, hslot⟩

theorem Consistent.step_path (h : Consistent .idle s) {op : Op} (hs : step s op = some t) :
    ∃ L, EffectPath (.idle, s) L (.idle, t) ∧ ∀ n ∈ L, GivesUp s op n := by
  cases op with
  | exec p inode r =>
    obtain ⟨hp, file, u, L, hstart, hpath, hL⟩ := h.execProcess_path hs
    exact ⟨_, (Effect.create hp hstart.memory).path.trans hpath.effectPath,
      fun n hn => hL n (by simpa using hn)⟩
  | call p c =>
    simp only [step] at hs
    split at hs
    · next hp => exact h.call_path hp hs
    · cases hs

theorem Consistent.step (h : Consistent .idle s) {op : Op} (hs : Vm.step s op = some t) :
    Consistent .idle t := by
  obtain ⟨L, hpath, -⟩ := h.step_path hs
  exact hpath.consistent h

theorem consistent_run {pages slots : Nat} {mem : KPage → PageData} {device : Nat → SectorData}
    {inode : InodeNo → Inode} {heap : Nat → Option Nat} {ops : List Op}
    (hr : run step (VmState.init pages slots mem device inode heap) ops = some s) :
    Consistent .idle s :=
  run_preserves (fun _ _ _ h hs => Consistent.step h hs)
    (consistent_init pages slots mem device inode heap) hr

/-- The frames of the table are those of the resident entries, which their processes have
mapped, and every page in use is that of one frame. -/
structure TablesAgree (s : VmState) : Prop where
  /-- A frame's entry points back, and its process maps its page. -/
  frame : ∀ f ∈ s.frameTable, ∃ fr i e p pd, s.frame f = some fr ∧ fr.spte = some i ∧
    s.spte i = some e ∧ e.frame = some f ∧ e.pagedir = some p ∧ s.pagedir p = some pd ∧
    pagedirGetPage pd e.upage = some fr.kpage
  kpage : ∀ f g fr gr, f ∈ s.frameTable → g ∈ s.frameTable → s.frame f = some fr →
    s.frame g = some gr → f ≠ g → fr.kpage ≠ gr.kpage
  resident : ∀ i e, s.spte i = some e → ∀ f, e.frame = some f → f ∈ s.frameTable
  /-- A page mapped by a process is that of a frame whose entry the process has. -/
  present : ∀ p pd u k, s.pagedir p = some pd → pagedirGetPage pd u = some k →
    ∃ f fr i e, f ∈ s.frameTable ∧ s.frame f = some fr ∧ fr.kpage = k ∧ fr.spte = some i ∧
      i ∈ s.spt p ∧ s.spte i = some e ∧ e.upage = pgRoundDown u ∧ e.frame = some f

theorem Consistent.tablesAgree (h : Consistent .idle s) : TablesAgree s := by
  constructor
  · intro f hf
    obtain ⟨fr, hfr⟩ := Option.isSome_iff_exists.mp ((h.mem_table f).mp hf)
    obtain ⟨p, i, e, hi, hip, he, hef⟩ := h.linked f fr hfr (by simp)
    obtain ⟨hpd, fr', pd, hfr', -, hpd', hget, -⟩ := h.resident p i e f hip he hef
    cases hfr.symm.trans hfr'
    exact ⟨fr, i, e, p, pd, hfr, hi, he, hef, hpd, hpd', hget⟩
  · intro f g fr gr _ _ hf hg hne heq
    exact hne (h.kpage_inj f g fr gr hf hg heq)
  · intro i e he f hef
    obtain ⟨p, hi⟩ := h.owned i e he
    obtain ⟨-, fr, -, hfr, -⟩ := h.resident p i e f hi he hef
    exact (h.mem_table f).mpr (by simp [hfr])
  · intro p pd u k hpd hk
    obtain ⟨i, e, hi, he, hup, hef⟩ := h.present p pd u hpd (by simp [hk])
    obtain ⟨f, hf⟩ := Option.ne_none_iff_exists'.mp hef
    obtain ⟨-, fr, pd', hfr, hfi, hpd', hget, -⟩ := h.resident p i e f hi he hf
    cases hpd.symm.trans hpd'
    refine ⟨f, fr, i, e, (h.mem_table f).mpr (by simp [hfr]), hfr, ?_, hfi, hi, he, hup, hf⟩
    rw [hup, pagedirGetPage_of_same (pgRoundDown_pgRoundDown u), hk] at hget
    exact (Option.some.inj hget).symm

end Pintos.Vm

import Pintos.Userprog.Confinement
import Pintos.Vm.EvictionRace
import Pintos.Vm.PinnedFrames

/-!
# Buffers during a transfer

`syscall_read` and `syscall_write` mean to pin the pages of the buffer before the transfer, by
`vm_load_page` with `pin` set. That function returns early for a page which is resident, without
pinning it. Here a call is run up to its transfer and during it, while other threads load pages
and evict what is not pinned. Source `userprog/syscall.c:200–311`,
`vm/page.c:96–134`.
-/

namespace Pintos.Userprog

open Pintos.Base Pintos.Threads Pintos.Vm Pintos.Filesys

variable {a : Addr} {pin : Bool} {fr : Frame} {ops : List PinOp} {r : Replacement}

variable {s t : VmState} {p : Pid} {w ok : Bool} {page buffer size : Addr}

/-- What a call has to do before its transfer: check an address, or load and pin a page. -/
inductive Stage where
  | check (addr : Addr)
  | pin (page : Addr)
  deriving DecidableEq, Repr

/-- The stages of `syscall_read` if `needWritable`, else of `syscall_write`. -/
def bufferStages (needWritable : Bool) (buffer size : Addr) : List Stage :=
  (if needWritable then [.check buffer]
    else (List.range' 0 size.toNat).map fun j => .check (bufferAddr buffer j)) ++
  (if size = 0 then [] else (pageRange buffer size).map .pin)

/-- A call on its way: the stages that are left. Without any, the transfer is going on. -/
structure PinState where
  vm : VmState
  todo : List Stage

/-- The next stage of the call, or another process loading the page of one of its entries. -/
inductive PinOp where
  | next
  | other (q : Pid) (i : SpteAddr) (l : PageLoad)

/-- One stage; the result is false where the process has to exit. -/
def runStage (p : Pid) (needWritable : Bool) (s : VmState) : Stage → Option (Bool × VmState)
  | .check addr => isValidAddr p addr s
  | .pin page => loadBufferPage p needWritable .clock page s

/-- One step. A call that exits takes no further steps. -/
def pinStep (p : Pid) (needWritable : Bool) (c : PinState) : PinOp → Option PinState
  | .next =>
    match c.todo with
    | [] => none
    | stage :: todo => (runStage p needWritable c.vm stage).bind fun r =>
      if r.1 then some ⟨r.2, todo⟩ else none
  | .other q i l =>
    match c.vm.spte i with
    | none => none
    | some e =>
      if q ≠ p ∧ i ∈ c.vm.spt q ∧ e.frame = none then
        (l.exec q i e.upage c.vm).map fun r => { c with vm := r.2 }
      else none

/-- The frame that an address of process `p` is in. -/
def pageFrame (s : VmState) (p : Pid) (a : Addr) : Option Frame := do
  let i ← sptLookup s p a
  let e ← s.spte i
  let f ← e.frame
  s.frame f

/-- The page of the address is resident and pinned. -/
def PinnedPage (s : VmState) (p : Pid) (a : Addr) : Prop :=
  (pageFrame s p a).any Frame.pinned = true

/-- A round of the page loop finds its page not resident, or pinned already. -/
def PinsPage (p : Pid) (c : PinState) : PinOp → Prop
  | .next => ∀ page todo, c.todo = .pin page :: todo → (pageFrame c.vm p page).all Frame.pinned = true
  | .other _ _ _ => True

/-! ## Pages that stay pinned, and pages that do not get pinned -/

/-- The page of an address is in the frame. -/
def InFrame (s : VmState) (p : Pid) (page : Addr) (fr : Frame) : Prop :=
  ∃ i e f, sptLookup s p page = some i ∧ s.spte i = some e ∧ e.frame = some f ∧
    s.frame f = some fr

private theorem pageFrame_some : pageFrame s p page = some fr ↔ InFrame s p page fr := by
  simp only [pageFrame, Option.bind_eq_bind, Option.bind_eq_some_iff, InFrame]
  grind

private theorem pinnedPage_iff :
    PinnedPage s p page ↔ ∃ fr, InFrame s p page fr ∧ fr.pinned = true := by
  simp only [PinnedPage, Option.any_eq_true, pageFrame_some]

private theorem pageFrame_all :
    (pageFrame s p page).all Frame.pinned = true ↔ ∀ fr, InFrame s p page fr → fr.pinned = true := by
  simp only [Option.all_eq_true, pageFrame_some]

private theorem sptLookup_extends (hx : Extends s t) (hc : Consistent .idle t) {i : SpteAddr}
    (hi : sptLookup s p page = some i) : sptLookup t p page = some i := by
  obtain ⟨hmem, e, he, hup⟩ := sptFind_some hi
  obtain ⟨e', he', hup', -⟩ := hx.spte i e he
  rw [sptLookup, ← hup, ← hup']
  exact hc.sptFind_eq (hx.spt p i hmem) he'

private theorem PinnedPage.spared (h : PinnedPage s p page) (hx : Extends s t)
    (hc : Consistent .idle t) (hs : ∀ i, sptLookup s p page = some i → Spared s t i) :
    PinnedPage t p page := by
  obtain ⟨fr, ⟨i, e, f, hi, he, hf, hfr⟩, hpin⟩ := pinnedPage_iff.mp h
  obtain ⟨e', he', ⟨hkept, hframe⟩ | ⟨-, hlost⟩⟩ := hs i hi e he
  · exact pinnedPage_iff.mpr
      ⟨fr, ⟨i, e', f, sptLookup_extends hx hc hi, he', hkept.trans hf, hframe f fr hf hfr⟩, hpin⟩
  · cases hpin.symm.trans (hlost f fr hf hfr)

/-- The page has an entry, and is not in a pinned frame. -/
private def UnpinnedPage (s : VmState) (p : Pid) (page : Addr) : Prop :=
  (∃ i, sptLookup s p page = some i) ∧ ∀ fr, InFrame s p page fr → fr.pinned = false

private theorem UnpinnedPage.spared (h : UnpinnedPage s p page) (hx : Extends s t)
    (hcs : Consistent .idle s) (hc : Consistent .idle t)
    (hs : ∀ i, sptLookup s p page = some i → Spared s t i) : UnpinnedPage t p page := by
  obtain ⟨⟨i, hi⟩, hall⟩ := h
  refine ⟨⟨i, sptLookup_extends hx hc hi⟩, ?_⟩
  rintro fr ⟨j, e', f, hj, he', hf, hfr⟩
  cases hj.symm.trans (sptLookup_extends hx hc hi)
  obtain ⟨hmem, e, he, -⟩ := sptFind_some hi
  obtain ⟨e'', he'', ⟨hkept, hframe⟩ | ⟨hlost, -⟩⟩ := hs i hi e he
  · cases he'.symm.trans he''
    have hef : e.frame = some f := hkept.symm.trans hf
    obtain ⟨-, fr', -, hfr', -⟩ := hcs.resident p i e f hmem he hef
    cases hfr.symm.trans (hframe f fr' hef hfr')
    exact hall fr ⟨i, e, f, hi, he, hef, hfr'⟩
  · cases he'.symm.trans he''
    cases hf.symm.trans hlost

private theorem Running.spared_of_ne (h : Running p s)
    (hl : vmLoadPage p a pin r s = some (ok, t)) (hne : pgRoundDown page ≠ pgRoundDown a) :
    ∀ i, sptLookup s p page = some i → Spared s t i := by
  intro i hi
  obtain ⟨hmem, e, he, hup⟩ := sptFind_some hi
  exact h.consistent.vmLoadPage_spared h.alive hl he fun hn => hne (hup.symm.trans hn.2)

private theorem sptLookup_congr (h : pgRoundDown page = pgRoundDown a) :
    sptLookup s p page = sptLookup s p a := by
  rw [sptLookup, sptLookup, h]

private theorem InFrame.congr (h : pgRoundDown page = pgRoundDown a) :
    InFrame s p page fr ↔ InFrame s p a fr := by
  simp only [InFrame, sptLookup_congr h]

private theorem InFrame.vmLoadPage (h : InFrame s p page fr) (pin : Bool)
    (r : Replacement) : vmLoadPage p page pin r s = some (true, s) := by
  obtain ⟨i, e, f, hi, he, hf, -⟩ := h
  have hlook : sptLookup s p (pgRoundDown page) = some i := by
    rw [sptLookup_congr (pgRoundDown_pgRoundDown page), hi]
  simp [Vm.vmLoadPage, vmFindSpte, hlook, he, hf]

private theorem Running.vmLoadPage_pinned (h : Running p s)
    (hl : vmLoadPage p page pin r s = some (true, t)) (hn : ∀ fr, ¬ InFrame s p page fr) :
    ∃ fr, InFrame t p page fr ∧ fr.pinned = pin := by
  unfold vmLoadPage at hl
  split at hl
  · cases hl
  · next i s1 hfind =>
    obtain ⟨hpath, -, hpost⟩ := h.consistent.search_path h.alive (vmFindSpte_search hfind)
    obtain ⟨hmem, e, he, hup, hnew⟩ := hpost i rfl
    have hc1 := hpath.consistent h.consistent
    have hef : e.frame = none := by
      rcases hnew with ⟨rfl, hi⟩ | hnone
      · by_contra hne
        obtain ⟨f, hf⟩ := Option.ne_none_iff_exists'.mp hne
        obtain ⟨-, fr, -, hfr, -⟩ := hc1.resident p i e f hmem he hf
        exact hn fr ⟨i, e, f, hi, he, hf, hfr⟩
      · exact hnone
    simp only [he, Option.bind_eq_bind, Option.bind_some, hef, Option.isSome_none,
      Bool.false_eq_true, if_false] at hl
    obtain ⟨L, hload, -, hpost⟩ := hc1.vmLoadSpte_path hmem he hef hl
    obtain ⟨f, fr, hspte, hfr, hpin⟩ := hpost rfl
    refine ⟨fr, ⟨i, _, f, ?_, hspte, rfl, hfr⟩, hpin⟩
    have hfound := (hload.consistent hc1).sptFind_eq (hload.extends.spt p i hmem) hspte
    rwa [hup] at hfound

private theorem InFrame.unique {fr' : Frame} (h : InFrame s p page fr)
    (h' : InFrame s p page fr') : fr = fr' := by
  obtain ⟨i, e, f, hi, he, hf, hfr⟩ := h
  obtain ⟨i', e', f', hi', he', hf', hfr'⟩ := h'
  cases hi.symm.trans hi'
  cases he.symm.trans he'
  cases hf.symm.trans hf'
  exact Option.some.inj (hfr.symm.trans hfr')

private theorem PinnedPage.vmLoadPage (hp : PinnedPage s p page) (h : Running p s) (hl : vmLoadPage p a pin r s = some (true, t)) :
    PinnedPage t p page := by
  by_cases hpage : pgRoundDown page = pgRoundDown a
  · obtain ⟨fr, hfr, -⟩ := pinnedPage_iff.mp hp
    rw [((InFrame.congr hpage).mp hfr).vmLoadPage] at hl
    cases hl
    exact hp
  · obtain ⟨L, hpath, -⟩ := h.consistent.vmLoadPage_path h.alive hl
    exact hp.spared hpath.extends (h.path hpath).1.consistent (h.spared_of_ne hl hpage)

private theorem UnpinnedPage.vmLoadPage (hp : UnpinnedPage s p page) (h : Running p s) (hl : vmLoadPage p a pin r s = some (true, t))
    (hpin : pin = true → pgRoundDown page ≠ pgRoundDown a) : UnpinnedPage t p page := by
  by_cases hpage : pgRoundDown page = pgRoundDown a
  · have hfalse : pin = false := by
      cases pin with
      | true => exact absurd hpage (hpin rfl)
      | false => rfl
    by_cases hin : ∃ fr, InFrame s p a fr
    · obtain ⟨fr, hfr⟩ := hin
      rw [hfr.vmLoadPage] at hl
      cases hl
      exact hp
    · obtain ⟨fr, hfr, hpin'⟩ := h.vmLoadPage_pinned hl fun fr hfr => hin ⟨fr, hfr⟩
      have hfr' : InFrame t p page fr := (InFrame.congr hpage).mpr hfr
      obtain ⟨i, -, -, hi, -⟩ := id hfr'
      exact ⟨⟨i, hi⟩, fun fr' h' => (hfr'.unique h') ▸ hpin'.trans hfalse⟩
  · obtain ⟨L, hpath, -⟩ := h.consistent.vmLoadPage_path h.alive hl
    exact hp.spared hpath.extends h.consistent (h.path hpath).1.consistent (h.spared_of_ne hl hpage)

/-! ## Steps -/

/-- What the call itself does in a step that succeeds: nothing, or one `vm_load_page`. -/
private theorem runStage_some {stage : Stage} (h : runStage p w s stage = some (true, t)) :
    t = s ∧ (∃ a, stage = .check a) ∨ (∃ a, stage = .check a ∧
      vmLoadPage p a false .clock s = some (true, t)) ∨
      ∃ page, stage = .pin page ∧ vmLoadPage p page true .clock s = some (true, t) := by
  cases stage with
  | check a =>
    simp only [runStage, isValidAddr] at h
    split at h
    · cases h
    · simp only [Option.bind_eq_bind, Option.bind_eq_some_iff] at h
      obtain ⟨pd, -, h⟩ := h
      split at h
      · cases h
        exact .inl ⟨rfl, a, rfl⟩
      · exact .inr (.inl ⟨a, rfl, h⟩)
  | pin page =>
    simp only [runStage, loadBufferPage, Option.bind_eq_bind, Option.bind_eq_some_iff] at h
    obtain ⟨⟨ok', t'⟩, hload, h⟩ := h
    simp only [Option.some.injEq, Prod.mk.injEq, Bool.and_eq_true] at h
    obtain ⟨⟨rfl, -⟩, rfl⟩ := h
    exact .inr (.inr ⟨page, rfl, hload⟩)

variable {c c' : PinState} {op : PinOp}

/-- What a step does: the call runs a stage, or an entry of another process is loaded. -/
private theorem Running.pinStep_cases (h : Running p c.vm) (hs : pinStep p w c op = some c') :
    (op = .next ∧ ∃ stage, c.todo = stage :: c'.todo ∧
        runStage p w c.vm stage = some (true, c'.vm)) ∨
      (op ≠ .next ∧ c'.todo = c.todo ∧ Running p c'.vm ∧ Extends c.vm c'.vm ∧
        ∀ j ∈ c.vm.spt p, Spared c.vm c'.vm j) := by
  cases op with
  | next =>
    simp only [pinStep] at hs
    split at hs
    · cases hs
    · next stage todo htodo =>
      obtain ⟨⟨ok, vm⟩, hrun, hs⟩ := Option.bind_eq_some_iff.mp hs
      cases ok with
      | false => cases hs
      | true =>
        cases hs
        exact .inl ⟨rfl, stage, htodo, hrun⟩
  | other q i l =>
    right
    simp only [pinStep] at hs
    split at hs
    · cases hs
    · next e he =>
      split at hs
      · next hcond =>
        obtain ⟨hqp, hi, hn⟩ := hcond
        obtain ⟨⟨ok, vm⟩, hload, rfl⟩ := Option.map_eq_some_iff.mp hs
        have hother : ∀ j ∈ c.vm.spt p, j ≠ i := by
          rintro j hj rfl
          exact hqp (h.consistent.spt_disjoint q p j hi hj)
        refine ⟨by simp, rfl, ?_⟩
        cases l with
        | fault r =>
          obtain ⟨L, hpath, -⟩ := h.consistent.handlePageLoad_path hi he (fun hne => absurd hn hne) hload
          exact ⟨(h.path hpath).1, hpath.extends,
            fun j hj => h.consistent.handlePageLoad_spared hload (hother j hj)⟩
        | vmLoadPage pin r =>
          have hq : (c.vm.pagedir q).isSome := h.consistent.live q i hi
          obtain ⟨L, hpath, -⟩ := h.consistent.vmLoadPage_path hq hload
          refine ⟨(h.path hpath).1, hpath.extends, fun j hj => ?_⟩
          obtain ⟨e', he', -⟩ := h.consistent.entry p j hj
          refine h.consistent.vmLoadPage_spared hq hload he' fun hn' => ?_
          exact hqp (h.consistent.spt_disjoint q p j hn'.1 hj)
      · cases hs

private theorem Running.runStage (h : Running p s) {stage : Stage}
    (hs : runStage p w s stage = some (true, t)) : Running p t ∧ Extends s t := by
  have hload : ∀ {a pin}, vmLoadPage p a pin .clock s = some (true, t) → Running p t ∧ Extends s t := by
    intro a pin hl
    obtain ⟨L, hpath, -⟩ := h.consistent.vmLoadPage_path h.alive hl
    exact h.path hpath
  rcases runStage_some hs with ⟨rfl, -⟩ | ⟨a, -, hl⟩ | ⟨a, -, hl⟩
  · exact ⟨h, .refl _⟩
  · exact hload hl
  · exact hload hl

private theorem Running.pinStep (h : Running p c.vm) (hs : pinStep p w c op = some c') :
    Running p c'.vm := by
  rcases h.pinStep_cases hs with ⟨-, stage, -, hrun⟩ | ⟨-, -, hr, -⟩
  · exact (h.runStage hrun).1
  · exact hr

private theorem PinnedPage.pinStep (hp : PinnedPage c.vm p page) (h : Running p c.vm)
    (hs : pinStep p w c op = some c') : PinnedPage c'.vm p page := by
  rcases h.pinStep_cases hs with ⟨-, stage, -, hrun⟩ | ⟨-, -, hr, hx, hspared⟩
  · rcases runStage_some hrun with ⟨heq, -⟩ | ⟨a, -, hl⟩ | ⟨a, -, hl⟩
    · rw [heq]
      exact hp
    · exact hp.vmLoadPage h hl
    · exact hp.vmLoadPage h hl
  · exact hp.spared hx hr.consistent fun i hi => hspared i (sptFind_some hi).1

/-- A page that is not pinned stays so, unless its own round is still to come. -/
private theorem UnpinnedPage.pinStep (hp : UnpinnedPage c.vm p page) (h : Running p c.vm)
    (hs : pinStep p w c op = some c')
    (htodo : ∀ a, .pin a ∈ c.todo → pgRoundDown page ≠ pgRoundDown a) :
    UnpinnedPage c'.vm p page := by
  rcases h.pinStep_cases hs with ⟨-, stage, hst, hrun⟩ | ⟨-, -, hr, hx, hspared⟩
  · rcases runStage_some hrun with ⟨heq, -⟩ | ⟨a, -, hl⟩ | ⟨a, rfl, hl⟩
    · rw [heq]
      exact hp
    · exact hp.vmLoadPage h hl (by simp)
    · exact hp.vmLoadPage h hl fun _ => htodo a (by simp [hst])
  · exact hp.spared hx h.consistent hr.consistent fun i hi => hspared i (sptFind_some hi).1

private theorem todo_pinStep (h : Running p c.vm) (hs : pinStep p w c op = some c') :
    c'.todo = c.todo ∨ ∃ stage, c.todo = stage :: c'.todo := by
  rcases h.pinStep_cases hs with ⟨-, stage, hst, -⟩ | ⟨-, htodo, -⟩
  · exact .inr ⟨stage, hst⟩
  · exact .inl htodo

/-! ## Runs -/

/-- A page that is not pinned after its round is not pinned in the end. -/
private theorem UnpinnedPage.run (hp : UnpinnedPage c.vm p page)
    (h : Running p c.vm) (htodo : ∀ a, .pin a ∈ c.todo → pgRoundDown page ≠ pgRoundDown a)
    (hr : Base.run (Userprog.pinStep p w) c ops = some c') : UnpinnedPage c'.vm p page := by
  refine (run_preserves (P := fun c => UnpinnedPage c.vm p page ∧ Running p c.vm ∧
    ∀ a, .pin a ∈ c.todo → pgRoundDown page ≠ pgRoundDown a) ?_ ⟨hp, h, htodo⟩ hr).1
  rintro c op c' ⟨hp, h, htodo⟩ hs
  refine ⟨hp.pinStep h hs htodo, h.pinStep hs, fun a ha => htodo a ?_⟩
  rcases todo_pinStep h hs with heq | ⟨stage, heq⟩
  · exact heq ▸ ha
  · rw [heq]
    exact List.mem_cons_of_mem _ ha

/-- The round of a page that finds it not resident, or pinned, leaves it pinned. -/
private theorem Running.pinned_of_round (h : Running p c.vm)
    (hs : Userprog.pinStep p w c op = some c')
    (hop : PinsPage p c op) {todo : List Stage} (hst : c.todo = .pin page :: todo)
    (hnext : c'.todo ≠ c.todo) : PinnedPage c'.vm p page := by
  rcases h.pinStep_cases hs with ⟨rfl, stage, hst', hrun⟩ | ⟨-, htodo, -⟩
  · obtain ⟨rfl, -⟩ := List.cons.inj (hst.symm.trans hst')
    rcases runStage_some hrun with ⟨-, a, ha⟩ | ⟨a, ha, -⟩ | ⟨a, ha, hl⟩
    · cases ha
    · cases ha
    · cases ha
      by_cases hin : ∃ fr, InFrame c.vm p page fr
      · obtain ⟨fr, hfr⟩ := hin
        have hpin := pageFrame_all.mp (hop page todo hst) fr hfr
        exact PinnedPage.vmLoadPage (pinnedPage_iff.mpr ⟨fr, hfr, hpin⟩) h hl
      · exact pinnedPage_iff.mpr (h.vmLoadPage_pinned hl fun fr hfr => hin ⟨fr, hfr⟩)
  · exact absurd htodo hnext

/-- If every round finds its page not resident or pinned, a page is pinned once its round is over. -/
private theorem pending_or_pinned (h : Running p c.vm)
    (hops : Along (pinStep p w) (PinsPage p) c ops) (hr : run (pinStep p w) c ops = some c')
    (ha : .pin a ∈ c.todo) : .pin a ∈ c'.todo ∨ PinnedPage c'.vm p a := by
  refine (run_preserves_along (P := fun c => Running p c.vm ∧
    (.pin a ∈ c.todo ∨ PinnedPage c.vm p a)) ?_ ⟨h, .inl ha⟩ hops hr).2
  rintro c op c' ⟨h, hpend | hpin⟩ hop hs
  all_goals refine ⟨h.pinStep hs, ?_⟩
  · rcases todo_pinStep h hs with heq | ⟨stage, heq⟩
    · exact .inl (heq ▸ hpend)
    · rw [heq] at hpend
      rcases List.mem_cons.mp hpend with rfl | hpend
      · exact .inr (h.pinned_of_round hs hop heq (by simp [heq]))
      · exact .inl hpend
  · exact .inr (hpin.pinStep h hs)

/-- The pages of the rounds to come are different pages. -/
private def DistinctPages (todo : List Stage) : Prop :=
  todo.Pairwise fun x y => ∀ a b, x = .pin a → y = .pin b → pgRoundDown a ≠ pgRoundDown b

private theorem pinStep_of_inFrame (h : Running p c.vm) {todo : List Stage}
    (hst : c.todo = .pin page :: todo) (hfr : InFrame c.vm p page fr)
    (hs : pinStep p w c .next = some c') : c.todo = .pin page :: c'.todo ∧ c'.vm = c.vm := by
  rcases h.pinStep_cases hs with ⟨-, stage, hst', hrun⟩ | ⟨hne, -⟩
  · obtain ⟨rfl, -⟩ := List.cons.inj (hst.symm.trans hst')
    refine ⟨hst', ?_⟩
    rcases runStage_some hrun with ⟨heq, -⟩ | ⟨a, ha, -⟩ | ⟨a, ha, hl⟩
    · exact heq
    · cases ha
    · cases ha
      rw [hfr.vmLoadPage] at hl
      exact (Prod.mk.inj (Option.some.inj hl)).2.symm
  · exact absurd rfl hne

/-- A page that is pinned in the end was not resident, or pinned, in its round. -/
private theorem along_of_pinned (h : Running p c.vm)
    (hdist : DistinctPages c.todo) (hr : run (pinStep p w) c ops = some c')
    (hpin : ∀ a, .pin a ∈ c.todo → PinnedPage c'.vm p a) :
    Along (pinStep p w) (PinsPage p) c ops := by
  induction ops generalizing c with
  | nil => trivial
  | cons op ops ih =>
    obtain ⟨c1, hs, hr1⟩ := run_cons_some hr
    refine ⟨?_, fun c2 hs2 => ?_⟩
    · cases op with
      | other => trivial
      | next =>
        intro a todo hst
        refine pageFrame_all.mpr fun fr hfr => ?_
        by_contra hne
        -- The round leaves a resident page as it is, and nobody pins it later.
        have hun : UnpinnedPage c.vm p a := by
          obtain ⟨i, -, -, hi, -⟩ := id hfr
          exact ⟨⟨i, hi⟩, fun fr' h' => (hfr.unique h') ▸ by simpa using hne⟩
        obtain ⟨hst', hvm⟩ := pinStep_of_inFrame h hst hfr hs
        rw [hst'] at hdist
        have hend := UnpinnedPage.run (hvm ▸ hun) (h.pinStep hs)
          (fun b hb => (List.pairwise_cons.mp hdist).1 _ hb a b rfl rfl) hr1
        obtain ⟨fr', hfr', hpinned⟩ := pinnedPage_iff.mp (hpin a (by simp [hst]))
        cases hpinned.symm.trans (hend.2 fr' hfr')
    · cases hs.symm.trans hs2
      rcases todo_pinStep h hs with heq | ⟨stage, heq⟩
      · exact ih (h.pinStep hs) (heq ▸ hdist) hr1 fun a ha => hpin a (heq ▸ ha)
      · rw [heq] at hdist hpin
        exact ih (h.pinStep hs) (List.pairwise_cons.mp hdist).2 hr1
          fun a ha => hpin a (List.mem_cons_of_mem _ ha)

private theorem distinctPages_pageRange (buffer size : Addr) :
    DistinctPages ((pageRange buffer size).map .pin) := by
  simp only [DistinctPages, List.pairwise_map, Stage.pin.injEq]
  unfold pageRange
  dsimp only
  split
  · next hle =>
    rw [List.pairwise_map]
    refine (List.pairwise_lt_range).imp_of_mem fun {k l} hk hl hkl => ?_
    rintro _ _ rfl rfl heq
    have hle' : (pgRoundDown buffer).toNat ≤ (pgRoundDown (buffer + size - 1)).toNat := hle
    have hlt := (pgRoundDown (buffer + size - 1)).isLt
    have hl' := List.mem_range.mp hl
    have hnat := congrArg BitVec.toNat heq
    simp only [toNat_pgRoundDown, BitVec.toNat_add, BitVec.toNat_ofNat, PGSIZE] at hnat hl' hle' hlt
    omega
  · exact List.Pairwise.nil

private theorem distinctPages_bufferStages (w : Bool) (buffer size : Addr) :
    DistinctPages (bufferStages w buffer size) := by
  have hchecks : ∀ l : List Stage, (∀ x ∈ l, ∃ a, x = .check a) → ∀ l', DistinctPages l' →
      DistinctPages (l ++ l') := by
    intro l hl l' hl'
    refine List.pairwise_append.mpr ⟨?_, hl', fun x hx y _ a b hxa _ => ?_⟩
    · refine List.Pairwise.imp_of_mem (R := fun _ _ => True) ?_ (List.pairwise_of_forall fun _ _ => trivial)
      intro x y hx _ _ a b hxa _
      obtain ⟨c, rfl⟩ := hl x hx
      cases hxa
    · obtain ⟨c, rfl⟩ := hl x hx
      cases hxa
  refine hchecks _ ?_ _ ?_
  · split <;> simp
  · split
    · exact List.Pairwise.nil
    · exact distinctPages_pageRange buffer size

private theorem mem_pageRange_iff (hz : size ≠ 0) (hwrap : buffer.toNat + size.toNat ≤ 2 ^ 32) :
    page ∈ pageRange buffer size ↔
      ∃ j < size.toNat, page = pgRoundDown (bufferAddr buffer j) := by
  have hpos : 0 < size.toNat := Nat.pos_of_ne_zero fun h => hz (BitVec.eq_of_toNat_eq h)
  have hlast : (buffer + size - 1).toNat = buffer.toNat + size.toNat - 1 := by
    have := buffer.isLt
    rw [BitVec.toNat_sub, BitVec.toNat_add]
    simp
    omega
  have haddr : ∀ j < size.toNat, (pgRoundDown (bufferAddr buffer j)).toNat =
      (buffer.toNat + j) / 4096 * 4096 := by
    intro j hj
    rw [toNat_pgRoundDown, bufferAddr, BitVec.toNat_add, BitVec.toNat_ofNat,
      Nat.mod_eq_of_lt (show j < 2 ^ 32 by omega),
      Nat.mod_eq_of_lt (show buffer.toNat + j < 2 ^ 32 by omega)]
  have hpage : ∀ k ≤ ((buffer.toNat + size.toNat - 1) / 4096 - buffer.toNat / 4096),
      (pgRoundDown buffer + BitVec.ofNat 32 (k * PGSIZE)).toNat =
        buffer.toNat / 4096 * 4096 + k * 4096 := by
    intro k hk
    rw [BitVec.toNat_add, BitVec.toNat_ofNat, toNat_pgRoundDown, PGSIZE]
    omega
  have hle : pgRoundDown buffer ≤ pgRoundDown (buffer + size - 1) := by
    rw [BitVec.le_def, toNat_pgRoundDown, toNat_pgRoundDown, hlast]
    omega
  have hcount : ((pgRoundDown (buffer + size - 1)).toNat - (pgRoundDown buffer).toNat) / PGSIZE =
      (buffer.toNat + size.toNat - 1) / 4096 - buffer.toNat / 4096 := by
    rw [toNat_pgRoundDown, toNat_pgRoundDown, hlast, PGSIZE]
    omega
  simp only [pageRange, if_pos hle, List.mem_map, List.mem_range, hcount]
  constructor
  · rintro ⟨k, hk, rfl⟩
    refine ⟨(buffer.toNat / 4096 + k) * 4096 - buffer.toNat, by omega, BitVec.eq_of_toNat_eq ?_⟩
    rw [hpage k (by omega), haddr _ (by omega)]
    omega
  · rintro ⟨j, hj, rfl⟩
    refine ⟨(buffer.toNat + j) / 4096 - buffer.toNat / 4096, by omega, BitVec.eq_of_toNat_eq ?_⟩
    rw [hpage _ (by omega), haddr j hj]
    omega

/-- Buffers are pinned during a transfer, whatever other processes load and evict meanwhile, if and
only if each round of the page loop has found its page not resident, or pinned already. -/
theorem buffer_pinned_iff {buffer size : Addr} (hs : Running p s)
    (hwrap : buffer.toNat + size.toNat ≤ 2 ^ 32) {ops : List PinOp} {c : PinState}
    (hr : run (pinStep p w) ⟨s, bufferStages w buffer size⟩ ops = some c) (hdone : c.todo = []) :
    (∀ j < size.toNat, PinnedPage c.vm p (bufferAddr buffer j)) ↔
      Along (pinStep p w) (PinsPage p) ⟨s, bufferStages w buffer size⟩ ops := by
  have hmem : ∀ page, .pin page ∈ bufferStages w buffer size ↔
      size ≠ 0 ∧ page ∈ pageRange buffer size := by
    intro page
    by_cases hz : size = 0 <;> cases w <;> simp [bufferStages, hz]
  have hpages : (∀ j < size.toNat, PinnedPage c.vm p (bufferAddr buffer j)) ↔
      ∀ page, .pin page ∈ bufferStages w buffer size → PinnedPage c.vm p page := by
    have hround : ∀ a, PinnedPage c.vm p (pgRoundDown a) ↔ PinnedPage c.vm p a := fun a => by
      simp only [PinnedPage, pageFrame, sptLookup_congr (pgRoundDown_pgRoundDown a)]
    constructor
    · intro hall page hp
      obtain ⟨hz, hp⟩ := (hmem page).mp hp
      obtain ⟨j, hj, rfl⟩ := (mem_pageRange_iff hz hwrap).mp hp
      exact (hround _).mpr (hall j hj)
    · intro hall j hj
      have hz : size ≠ 0 := by
        rintro rfl
        exact absurd hj (Nat.not_lt_zero j)
      exact (hround _).mp (hall _ ((hmem _).mpr ⟨hz, (mem_pageRange_iff hz hwrap).mpr ⟨j, hj, rfl⟩⟩))
  rw [hpages]
  constructor
  · intro hpin
    exact along_of_pinned hs (distinctPages_bufferStages w buffer size) hr hpin
  · intro hops page hpage
    have hend := pending_or_pinned hs hops hr hpage
    rw [hdone] at hend
    exact hend.resolve_left List.not_mem_nil

/-- A buffer in a page that an earlier call has left pinned. -/
theorem buffer_pinned_iff_pinnedBefore :
    ∃ s c, run Vm.step (smallMachine 2 4) [.exec 0 (some 0) .clock, .call 0 (.enter 0xbfffe000),
        .call 0 (.vmLoadPage 0xbfffe000 true .clock)] = some s ∧
      run (pinStep 0 true) ⟨s, bufferStages true 0xbfffe000 4⟩ [.next, .next] = some c ∧
      c.todo = [] ∧ ∀ j < (4 : Addr).toNat, PinnedPage c.vm 0 (bufferAddr 0xbfffe000 j) := by
  obtain ⟨c, hc⟩ := Option.isSome_iff_exists.mp
    (show ((run Vm.step (smallMachine 2 4) [.exec 0 (some 0) .clock, .call 0 (.enter 0xbfffe000),
        .call 0 (.vmLoadPage 0xbfffe000 true .clock)]).bind fun s =>
      (pinStep 0 true ⟨s, bufferStages true 0xbfffe000 4⟩ .next).bind fun c1 =>
      (pinStep 0 true c1 .next).bind fun c =>
        if (s.pagedir 0).isSome = true ∧ c.todo = [] ∧ c1.todo = [.pin 0xbfffe000] ∧
          (pageFrame c1.vm 0 0xbfffe000).all Frame.pinned = true then some c
        else none).isSome = true by decide +kernel)
  obtain ⟨s, hs, c1, h1, c, h2, hcond⟩ := by simpa only [Option.bind_eq_some_iff] using hc
  split at hcond
  · next h =>
    have hr : run (pinStep 0 true) ⟨s, bufferStages true 0xbfffe000 4⟩ [.next, .next] = some c := by
      rw [run_cons, h1, Option.bind_some, run_cons, h2, Option.bind_some, run_nil]
    obtain ⟨halive, hdone, htodo1, hpinned⟩ := h
    refine ⟨s, c, hs, hr, hdone, (buffer_pinned_iff ⟨consistent_run hs, halive⟩ (by decide) hr
      hdone).mpr ⟨by rintro page todo ⟨⟩, fun c1' h1' => ⟨fun page todo htodo => ?_, fun _ _ => trivial⟩⟩⟩
    cases h1.symm.trans h1'
    cases htodo1.symm.trans htodo
    exact hpinned
  · cases hcond

/-- The page of a buffer that is resident when the call begins is not pinned during the
transfer. -/
theorem resident_buffer_not_pinned :
    ∃ s c, run Vm.step (smallMachine 2 4) [.exec 0 (some 0) .clock] = some s ∧
      run (pinStep 0 true) ⟨s, bufferStages true 0xbffff000 4⟩ [.next, .next] = some c ∧
      c.todo = [] ∧ ¬ PinnedPage c.vm 0 0xbffff000 := by
  obtain ⟨c, hc⟩ := Option.isSome_iff_exists.mp
    (show ((run Vm.step (smallMachine 2 4) [.exec 0 (some 0) .clock]).bind fun s =>
      (run (pinStep 0 true) ⟨s, bufferStages true 0xbffff000 4⟩ [.next, .next]).bind fun c =>
        if c.todo = [] ∧ (pageFrame c.vm 0 0xbffff000).any Frame.pinned = false then some c
        else none).isSome = true by decide +kernel)
  obtain ⟨s, hs, c, hr, hcond⟩ := by simpa only [Option.bind_eq_some_iff] using hc
  split at hcond
  · next h =>
    exact ⟨s, c, hs, hr, h.1, fun hp => by cases h.2.symm.trans hp⟩
  · cases hcond

end Pintos.Userprog

import Pintos.Vm.Paths

/-!
# Entries added to a table

A loop that allocates an entry for each page of a range and inserts it, in `load_segment` and
`mmap_map`: the table gains the new entries, in front, and nothing else of it changes.
-/

namespace Pintos.Vm

open Pintos.Threads Pintos.Userprog

variable {s t u : VmState} {p : Pid} {entry : Nat → SptEntry} {added : List SpteAddr}

/-- The entries `added` are new, the `j`-th with the fields `entry j`. -/
structure EntriesAdded (p : Pid) (entry : Nat → SptEntry) (added : List SpteAddr)
    (s t : VmState) : Prop where
  spt : t.spt = Function.update s.spt p (added.reverse ++ s.spt p)
  entry : ∀ j i, added[j]? = some i → t.spte i = some (entry j)
  other : ∀ i, i ∉ added → t.spte i = s.spte i
  fresh : ∀ i ∈ added, s.spte i = none
  nodup : added.Nodup

namespace EntriesAdded

theorem nil (p : Pid) (entry : Nat → SptEntry) (s : VmState) : EntriesAdded p entry [] s s where
  spt := by simp
  entry := by simp
  other := fun _ _ => rfl
  fresh := by simp
  nodup := List.nodup_nil

theorem of_takeHeap (h : EntriesAdded p entry added s.takeHeap.2 t) :
    EntriesAdded p entry added s t :=
  ⟨h.spt, h.entry, h.other, h.fresh, h.nodup⟩

theorem mem_spt (h : EntriesAdded p entry added s t) {i : SpteAddr} :
    i ∈ t.spt p ↔ i ∈ added ∨ i ∈ s.spt p := by
  rw [h.spt]
  simp

theorem live (h : EntriesAdded p entry added s t) (hlive : ∀ i ∈ s.spt p, (s.spte i).isSome)
    {i : SpteAddr} (hi : i ∈ t.spt p) : (t.spte i).isSome := by
  by_cases hmem : i ∈ added
  · obtain ⟨j, hj⟩ := List.getElem?_of_mem hmem
    rw [h.entry j i hj]
    rfl
  · rw [h.other i hmem]
    exact hlive i ((h.mem_spt.mp hi).resolve_left hmem)

/-- An entry of the table is one of the new ones, at its place, or an old one. -/
theorem cases_entry (h : EntriesAdded p entry added s t)
    (hlive : ∀ i ∈ s.spt p, (s.spte i).isSome) {i : SpteAddr} {e : SptEntry} (hi : i ∈ t.spt p)
    (he : t.spte i = some e) :
    (∃ j, added[j]? = some i ∧ e = entry j) ∨ i ∉ added ∧ i ∈ s.spt p ∧ s.spte i = some e := by
  rcases h.mem_spt.mp hi with hnew | hold
  · obtain ⟨j, hj⟩ := List.getElem?_of_mem hnew
    have hentry := h.entry j i hj
    rw [he] at hentry
    exact .inl ⟨j, hj, Option.some.inj hentry⟩
  · have hnot : i ∉ added := by
      intro hmem
      have hsome := hlive i hold
      rw [h.fresh i hmem] at hsome
      cases hsome
    rw [h.other i hnot] at he
    exact .inr ⟨hnot, hold, he⟩

theorem cons {i : SpteAddr} (hi : s.spte i = none)
    (h : EntriesAdded p (fun j => entry (j + 1)) added
      { s.newSpte i (entry 0) with spt := Function.update s.spt p (i :: s.spt p) } t) :
    EntriesAdded p entry (i :: added) s t := by
  have hnot : i ∉ added := by
    intro hmem
    have hfresh := h.fresh i hmem
    simp [VmState.newSpte] at hfresh
  refine ⟨?_, fun j i' hj => ?_, fun i' hi' => ?_, fun i' hi' => ?_, List.nodup_cons.mpr ⟨hnot, h.nodup⟩⟩
  · rw [h.spt]
    simp
  · cases j with
    | zero =>
      cases hj
      rw [h.other i hnot]
      simp [VmState.newSpte]
    | succ j => exact h.entry j i' hj
  · rw [List.mem_cons, not_or] at hi'
    rw [h.other i' hi'.2]
    simp [VmState.newSpte, hi'.1]
  · rcases List.mem_cons.mp hi' with rfl | hmem
    · exact hi
    · have hfresh := h.fresh i' hmem
      have hne : i' ≠ i := by
        rintro rfl
        exact hnot hmem
      simpa [VmState.newSpte, hne] using hfresh

end EntriesAdded

/-- Entries have been made or undone, and nothing else has changed. -/
def OnlyEntries (s t : VmState) : Prop :=
  t = { s with spt := t.spt, spte := t.spte, heap := t.heap, swapLog := t.swapLog }

theorem OnlyEntries.trans (h : OnlyEntries s t) (h' : OnlyEntries t u) :
    OnlyEntries s u := by
  unfold OnlyEntries at *
  rw [h', h]

theorem OnlyEntries.file (h : OnlyEntries s t) : t.file = s.file := by rw [h]

theorem OnlyEntries.inode (h : OnlyEntries s t) : t.inode = s.inode := by rw [h]

end Pintos.Vm

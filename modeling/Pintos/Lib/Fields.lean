import Pintos.Lib.CString

/-!
# Fields of a record in memory

A record is a block of bytes in which each field has its place. A sequence of writes to different
places leaves in each field what its own write put there.
-/

namespace Pintos.Lib

/-- The place of a field in its record. -/
structure Field where
  offset : Nat
  size : Nat
  deriving DecidableEq, Repr

namespace Field

/-- The bytes of the field. -/
def get (f : Field) (b : Bytes) : Bytes := fun j => b (f.offset + j)

/-- The record with other bytes in the field. -/
def set (f : Field) (b v : Bytes) : Bytes := memcpy b f.offset f.size v

/-- The fields have no byte in common. -/
def Disjoint (f g : Field) : Prop := f.offset + f.size ≤ g.offset ∨ g.offset + g.size ≤ f.offset

instance (f g : Field) : Decidable (f.Disjoint g) := instDecidableOr

private theorem get_set {f : Field} {b v : Bytes} {j : Nat} (hj : j < f.size) :
    f.get (f.set b v) j = v j := by
  unfold get set
  rw [memcpy_of_mem (by omega) (by omega), Nat.add_sub_cancel_left]

private theorem get_set_of_disjoint {f g : Field} {b v : Bytes} {j : Nat} (h : f.Disjoint g)
    (hj : j < f.size) : f.get (g.set b v) j = f.get b j := by
  unfold get set
  rcases h with h | h
  · rw [memcpy_of_lt (by omega)]
  · rw [memcpy_of_ge (by omega)]

theorem set_of_not_mem {f : Field} {b v : Bytes} {i : Nat}
    (h : ¬ (f.offset ≤ i ∧ i < f.offset + f.size)) : f.set b v i = b i := if_neg h

end Field

/-- A write to a field, as a function of its old bytes. -/
structure Write where
  field : Field
  value : Bytes → Bytes

namespace Write

/-- The record after the write. -/
def apply (w : Write) (b : Bytes) : Bytes := w.field.set b (w.value (w.field.get b))

/-- The record after the writes, in order. -/
def applyAll (ws : List Write) (b : Bytes) : Bytes := ws.foldl (fun b w => w.apply b) b

/-- `strlcpy` into a field. -/
def string (f : Field) (s : CString) : Write := ⟨f, fun b => strlcpy b s f.size⟩

theorem applyAll_append (ws ws' : List Write) (b : Bytes) :
    applyAll (ws ++ ws') b = applyAll ws' (applyAll ws b) := List.foldl_append

theorem get_applyAll_of_disjoint {f : Field} {ws : List Write} {b : Bytes} {j : Nat}
    (hf : ∀ w ∈ ws, f.Disjoint w.field) (hj : j < f.size) :
    f.get (applyAll ws b) j = f.get b j := by
  induction ws generalizing b with
  | nil => rfl
  | cons w ws ih =>
    have hrest := @ih (w.apply b) fun w' hw' => hf w' (List.mem_cons_of_mem w hw')
    exact hrest.trans (Field.get_set_of_disjoint (hf w List.mem_cons_self) hj)

theorem applyAll_of_ge {ws : List Write} {b : Bytes} {i : Nat}
    (h : ∀ w ∈ ws, w.field.offset + w.field.size ≤ i) : applyAll ws b i = b i := by
  induction ws generalizing b with
  | nil => rfl
  | cons w ws ih =>
    have hrest := @ih (w.apply b) fun w' hw' => h w' (List.mem_cons_of_mem w hw')
    have hw := h w List.mem_cons_self
    exact hrest.trans (Field.set_of_not_mem (by omega))

/-- If all writes go to different places, each field holds what its write makes of its bytes. -/
theorem exists_get_applyAll {ws : List Write} {w : Write} (hw : w ∈ ws)
    (hd : (ws.map field).Pairwise Field.Disjoint) (b : Bytes) :
    ∃ b', (∀ j < w.field.size, b' j = w.field.get b j) ∧
      ∀ j < w.field.size, w.field.get (applyAll ws b) j = w.value b' j := by
  obtain ⟨pre, post, rfl⟩ := List.append_of_mem hw
  rw [List.map_append, List.map_cons, List.pairwise_append, List.pairwise_cons] at hd
  obtain ⟨-, ⟨hpost, -⟩, hpre⟩ := hd
  refine ⟨w.field.get (applyAll pre b), fun j hj => ?_, fun j hj => ?_⟩
  · apply get_applyAll_of_disjoint _ hj
    intro w' hw'
    have := hpre w'.field (List.mem_map_of_mem hw') w.field List.mem_cons_self
    exact Or.symm this
  · rw [applyAll_append]
    have hrest := @get_applyAll_of_disjoint w.field post (w.apply (applyAll pre b)) j
      (fun w' hw' => hpost w'.field (List.mem_map_of_mem hw')) hj
    exact hrest.trans (Field.get_set hj)

theorem strAt_applyAll {f : Field} {s : CString} {ws : List Write} (hw : string f s ∈ ws)
    (hd : (ws.map field).Pairwise Field.Disjoint) (b : Bytes) (hlen : s.bytes.length < f.size) :
    StrAt (f.get (applyAll ws b)) 0 s.bytes := by
  obtain ⟨b', -, hb'⟩ := exists_get_applyAll hw hd b
  obtain ⟨n, hn⟩ : ∃ n, f.size = n + 1 := ⟨f.size - 1, by omega⟩
  have hcopy := strAt_strlcpy b' s n
  rw [List.take_of_length_le (by omega), ← hn] at hcopy
  apply hcopy.congr
  intro j hj
  rw [Nat.zero_add]
  exact hb' j (Nat.lt_of_le_of_lt hj hlen)

end Write

end Pintos.Lib

import Mathlib.Data.List.Infix
import Mathlib.Data.Nat.ModEq

/-!
# Circular buffers

A buffer of `n` slots. New elements go in at `head`, old ones come out at `tail`, and one slot stays
free, so that equal positions mean that the buffer is empty. The buffer is in order if what has come
out is the beginning of what has gone in, and the slots in use have the rest.
-/

namespace Pintos.Base

universe u

/-- The position after a position. -/
def nextPos (n pos : Nat) : Nat := (pos + 1) % n

/-- A circular buffer, with all that has gone in and come out. -/
structure Ring (α : Type u) (n : Nat) where
  buf : Nat → α
  head : Nat
  tail : Nat
  ins : List α
  outs : List α

namespace Ring

variable {α : Type u} {n : Nat}

/-- An empty buffer; the slots may have anything. -/
def init (buf : Nat → α) : Ring α n := ⟨buf, 0, 0, [], []⟩

def isEmpty (r : Ring α n) : Bool := r.head == r.tail

def isFull (r : Ring α n) : Bool := nextPos n r.head == r.tail

def put (r : Ring α n) (x : α) : Ring α n :=
  { r with buf := Function.update r.buf r.head x, head := nextPos n r.head, ins := r.ins ++ [x] }

def get (r : Ring α n) : Ring α n :=
  { r with tail := nextPos n r.tail, outs := r.outs ++ [r.buf r.tail] }

/-- What has come out is the beginning of what has gone in, and the slots have the rest. -/
structure InOrder (r : Ring α n) : Prop where
  outs : r.outs <+: r.ins
  room : r.ins.length < r.outs.length + n
  head : r.head = r.ins.length % n
  tail : r.tail = r.outs.length % n
  slot : ∀ i x, r.outs.length ≤ i → r.ins[i]? = some x → r.buf (i % n) = x

private theorem eq_of_mod_eq {i j : Nat} (hij : i ≤ j) (hj : j < i + n) (h : i % n = j % n) :
    i = j := by
  have hzero := Nat.eq_zero_of_dvd_of_lt ((Nat.modEq_iff_dvd' hij).mp h) (by omega)
  omega

theorem inOrder_init (buf : Nat → α) (hn : 0 < n) : (init buf : Ring α n).InOrder :=
  ⟨List.prefix_rfl, by simpa [init] using hn, (Nat.zero_mod n).symm, (Nat.zero_mod n).symm,
    by simp [init]⟩

namespace InOrder

variable {r : Ring α n}

private theorem isEmpty_iff (h : r.InOrder) : r.isEmpty = true ↔ r.outs = r.ins := by
  rw [isEmpty, beq_iff_eq, h.head, h.tail]
  constructor
  · intro he
    exact h.outs.eq_of_length (eq_of_mod_eq h.outs.length_le h.room he.symm)
  · intro he
    rw [he]

theorem put (h : r.InOrder) (hf : r.isFull = false) (x : α) :
    (r.put x).InOrder ∧ (r.put x).isEmpty = false := by
  have hlen := h.outs.length_le
  have hroom : r.ins.length + 1 < r.outs.length + n := by
    refine lt_of_le_of_ne h.room fun he => ne_true_of_eq_false hf ?_
    rw [isFull, beq_iff_eq, nextPos, h.head, h.tail, Nat.mod_add_mod, he, Nat.add_mod_right]
  have hput : (r.put x).InOrder := by
    refine ⟨h.outs.trans (List.prefix_append _ _), by simpa [Ring.put] using hroom, ?_, h.tail, ?_⟩
    · simp [Ring.put, nextPos, h.head]
    · intro i y hi hy
      rcases lt_trichotomy i r.ins.length with hlt | rfl | hgt
      · refine (Function.update_of_ne ?_ _ _).trans
          (h.slot i y hi (by rwa [Ring.put, List.getElem?_append_left hlt] at hy))
        rw [h.head]
        exact fun he => hlt.ne
          (eq_of_mod_eq hlt.le (h.room.trans_le (Nat.add_le_add_right hi n)) he)
      · have hxy : x = y := by simpa [Ring.put] using hy
        rw [← hxy, Ring.put, ← h.head]
        exact Function.update_self r.head x r.buf
      · rw [Ring.put, List.getElem?_eq_none (by rw [List.length_append]; exact hgt)] at hy
        cases hy
  refine ⟨hput, ?_⟩
  rw [← Bool.not_eq_true, hput.isEmpty_iff]
  intro he
  have hcount : r.outs.length = r.ins.length + 1 := by
    simpa [Ring.put] using congrArg List.length he
  omega

theorem get (h : r.InOrder) (he : r.isEmpty = false) : r.get.InOrder ∧ r.get.isFull = false := by
  have hlt : r.outs.length < r.ins.length := by
    refine lt_of_le_of_ne h.outs.length_le fun hlen => ne_true_of_eq_false he ?_
    exact h.isEmpty_iff.mpr (h.outs.eq_of_length hlen)
  have hfront : r.buf r.tail = r.ins[r.outs.length] := by
    rw [h.tail]
    exact h.slot _ _ le_rfl (List.getElem?_eq_getElem hlt)
  have hroom := h.room
  refine ⟨⟨?_, ?_, h.head, ?_, fun i x hi => h.slot i x ?_⟩, ?_⟩
  · rw [Ring.get, hfront]
    exact List.concat_get_prefix h.outs hlt
  · simp only [Ring.get, List.length_append, List.length_singleton]
    omega
  · simp [Ring.get, nextPos, h.tail]
  · simp only [Ring.get, List.length_append, List.length_singleton] at hi
    omega
  · rw [← Bool.not_eq_true, isFull, beq_iff_eq]
    intro hfull
    simp only [Ring.get, nextPos, h.head, h.tail, Nat.mod_add_mod] at hfull
    have := eq_of_mod_eq (n := n) (by omega) (by omega) hfull.symm
    omega

end InOrder

end Ring

end Pintos.Base

import Mathlib.Data.Set.Basic

/-!
# Sets with one element per class

A set that holds at most one element of each class of an equivalence relation, with the operations
of a set that is searched by equivalence.
-/

namespace Pintos.Base

universe u

variable {α : Type u} {r : Setoid α}

/-- At most one element of each class. -/
structure KeyedSet (r : Setoid α) where
  carrier : Set α
  unique : ∀ x ∈ carrier, ∀ y ∈ carrier, r x y → x = y

namespace KeyedSet

variable {S : KeyedSet r} {e x : α}

/-- The set without elements. -/
def empty (r : Setoid α) : KeyedSet r := ⟨∅, fun _ hx => hx.elim⟩

open Classical in
/-- The element of the class of `e`. -/
noncomputable def lookup (S : KeyedSet r) (e : α) : Option α :=
  if h : ∃ x ∈ S.carrier, r x e then some h.choose else none

theorem lookup_eq_some_iff : S.lookup e = some x ↔ x ∈ S.carrier ∧ r x e := by
  unfold lookup
  split
  · next h =>
    obtain ⟨hmem, hr⟩ := h.choose_spec
    constructor
    · intro heq
      obtain rfl := Option.some.inj heq
      exact ⟨hmem, hr⟩
    · intro hx
      exact congrArg some (S.unique _ hmem x hx.1 (r.trans hr (r.symm hx.2)))
  · next h =>
    exact ⟨fun heq => absurd heq (by simp), fun hx => absurd ⟨x, hx⟩ h⟩

theorem lookup_eq_none_iff : S.lookup e = none ↔ ∀ x ∈ S.carrier, ¬ r x e := by
  unfold lookup
  split
  · next h =>
    obtain ⟨x, hx, hr⟩ := h
    exact ⟨fun heq => absurd heq (by simp), fun hall => absurd hr (hall x hx)⟩
  · next h => exact ⟨fun _ x hx hr => h ⟨x, hx, hr⟩, fun _ => rfl⟩

/-- The set without the class of `e`. -/
def delete (S : KeyedSet r) (e : α) : KeyedSet r :=
  ⟨{x ∈ S.carrier | ¬ r x e}, fun x hx y hy => S.unique x hx.1 y hy.1⟩

/-- The set with `e` in the place of the element of its class, if there is one. -/
def replace (S : KeyedSet r) (e : α) : KeyedSet r where
  carrier := insert e (S.delete e).carrier
  unique := by
    intro x hx y hy hxy
    rcases hx with rfl | hx <;> rcases hy with rfl | hy
    · rfl
    · exact absurd (r.symm hxy) hy.2
    · exact absurd hxy hx.2
    · exact S.unique x hx.1 y hy.1 hxy

/-- The set with `e`, unless there is an element of its class. -/
noncomputable def add (S : KeyedSet r) (e : α) : KeyedSet r :=
  match S.lookup e with
  | some _ => S
  | none => S.replace e

private theorem mem_delete : x ∈ (S.delete e).carrier ↔ x ∈ S.carrier ∧ ¬ r x e := Iff.rfl

theorem mem_replace : x ∈ (S.replace e).carrier ↔ x = e ∨ x ∈ S.carrier ∧ ¬ r x e := Iff.rfl

theorem mem_delete_of_lookup {old : α} (h : S.lookup e = some old) :
    x ∈ (S.delete e).carrier ↔ x ∈ S.carrier ∧ x ≠ old := by
  obtain ⟨hold, hr⟩ := lookup_eq_some_iff.mp h
  rw [mem_delete]
  refine and_congr_right fun hx => not_congr ⟨fun hxe => ?_, fun heq => ?_⟩
  · exact S.unique x hx old hold (r.trans hxe (r.symm hr))
  · rw [heq]
    exact hr

theorem delete_of_lookup_none (h : S.lookup e = none) : (S.delete e).carrier = S.carrier := by
  ext x
  rw [mem_delete]
  exact ⟨fun hx => hx.1, fun hx => ⟨hx, lookup_eq_none_iff.mp h x hx⟩⟩

end KeyedSet

end Pintos.Base

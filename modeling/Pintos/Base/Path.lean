import Mathlib.Data.List.Basic

/-!
# Labelled paths

Finite sequences of steps of a relation whose steps carry lists of labels. A path collects
the labels of its steps, latest first. One rule lifts what each step preserves, also where
the invariant speaks about the labels collected so far.
-/

namespace Pintos.Base

universe u v

variable {σ : Type u} {ι : Type v}

/-- A finite sequence of steps. -/
inductive Path (E : σ → List ι → σ → Prop) : σ → List ι → σ → Prop where
  | refl {a : σ} : Path E a [] a
  | tail {a b c : σ} {L L' : List ι} (h : Path E a L b) (he : E b L' c) : Path E a (L' ++ L) c

variable {E : σ → List ι → σ → Prop} {a b c : σ} {L L' : List ι}

theorem Path.single (h : E a L b) : Path E a L b := by
  simpa using Path.refl.tail h

theorem Path.trans (h : Path E a L b) (h' : Path E b L' c) : Path E a (L' ++ L) c := by
  induction h' with
  | refl => exact h
  | tail _ he ih => simpa using ih.tail he

theorem Path.mono {E' : σ → List ι → σ → Prop} (hE : ∀ {a L b}, E a L b → E' a L b)
    (h : Path E a L b) : Path E' a L b := by
  induction h with
  | refl => exact .refl
  | tail _ he ih => exact ih.tail (hE he)

/-- An invariant about a state and the labels collected so far holds at the end of a path. -/
theorem Path.preserves {P : List ι → σ → Prop}
    (hstep : ∀ {D a L b}, E a L b → P D a → P (L ++ D) b) {D : List ι}
    (h : Path E a L b) (ha : P D a) : P (L ++ D) b := by
  induction h with
  | refl => exact ha
  | tail _ he ih => simpa using hstep he ih

/-- A reflexive and transitive relation that holds across each step holds across a path. -/
theorem Path.relates {Q : σ → σ → Prop} (hrefl : ∀ a, Q a a)
    (htrans : ∀ {a b c}, Q a b → Q b c → Q a c) (hstep : ∀ {a L b}, E a L b → Q a b)
    (h : Path E a L b) : Q a b := by
  induction h with
  | refl => exact hrefl _
  | tail _ he ih => exact htrans ih (hstep he)

end Pintos.Base

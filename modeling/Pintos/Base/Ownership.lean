import Mathlib.Logic.Basic

/-!
# Resources and their holders

A resource is live exactly while somebody holds it, and it never has two holders. A holder lets go
of a resource by releasing it, and a new resource is live because it gets a holder.
-/

namespace Pintos.Base

universe u v

variable {K : Type u} {F : Type v} {holds holds' : K → F → Prop} {live live' : F → Prop} {k : K}
  {f : F}

/-- The live resources are those that are held, each by one holder. -/
structure Owned (holds : K → F → Prop) (live : F → Prop) : Prop where
  alive : ∀ k f, holds k f → live f
  held : ∀ f, live f → ∃ k, holds k f
  unique : ∀ k k' f, holds k f → holds k' f → k = k'

namespace Owned

/-- Holders and resources that stay the same are still in order. -/
theorem congr (h : Owned holds live) (hh : ∀ k f, holds' k f ↔ holds k f)
    (hl : ∀ f, live' f ↔ live f) : Owned holds' live' where
  alive := fun k f hk => (hl f).mpr (h.alive k f ((hh k f).mp hk))
  held := fun f hf => (h.held f ((hl f).mp hf)).imp fun k => (hh k f).mpr
  unique := fun k k' f hk hk' => h.unique k k' f ((hh k f).mp hk) ((hh k' f).mp hk')

/-- A holder releases the one resource that it has. -/
theorem release (h : Owned holds live) (hk : holds k f) (hone : ∀ g, holds k g → g = f)
    (hh : ∀ k' g, holds' k' g ↔ holds k' g ∧ k' ≠ k) (hl : ∀ g, live' g ↔ live g ∧ g ≠ f) :
    Owned holds' live' where
  alive := by
    intro k' g hg
    obtain ⟨hold, hne⟩ := (hh k' g).mp hg
    refine (hl g).mpr ⟨h.alive k' g hold, ?_⟩
    rintro rfl
    exact hne (h.unique k' k g hold hk)
  held := by
    intro g hg
    obtain ⟨hlive, hne⟩ := (hl g).mp hg
    obtain ⟨k', hk'⟩ := h.held g hlive
    refine ⟨k', (hh k' g).mpr ⟨hk', ?_⟩⟩
    rintro rfl
    exact hne (hone g hk')
  unique := fun k1 k2 g h1 h2 => h.unique k1 k2 g ((hh k1 g).mp h1).1 ((hh k2 g).mp h2).1

/-- A resource that was not live gets a holder. -/
theorem acquire (h : Owned holds live) (hf : ¬ live f)
    (hh : ∀ k' g, holds' k' g ↔ holds k' g ∨ (k' = k ∧ g = f))
    (hl : ∀ g, live' g ↔ live g ∨ g = f) : Owned holds' live' where
  alive := by
    intro k' g hg
    rcases (hh k' g).mp hg with hold | ⟨-, rfl⟩
    · exact (hl g).mpr (.inl (h.alive k' g hold))
    · exact (hl g).mpr (.inr rfl)
  held := by
    intro g hg
    rcases (hl g).mp hg with hlive | rfl
    · obtain ⟨k', hk'⟩ := h.held g hlive
      exact ⟨k', (hh k' g).mpr (.inl hk')⟩
    · exact ⟨k, (hh k g).mpr (.inr ⟨rfl, rfl⟩)⟩
  unique := by
    intro k1 k2 g h1 h2
    rcases (hh k1 g).mp h1 with ho1 | ⟨rfl, rfl⟩ <;> rcases (hh k2 _).mp h2 with ho2 | ⟨rfl, hg⟩
    · exact h.unique k1 k2 g ho1 ho2
    · exact absurd (h.alive k1 g ho1) (hg ▸ hf)
    · exact absurd (h.alive k2 _ ho2) hf
    · rfl

end Owned

end Pintos.Base

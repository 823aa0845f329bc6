import Pintos.Base.Run

/-!
# Second-chance walks

A hand walks round a ring and visits its elements. A visit chooses the element it looks at,
which ends the walk, or passes over it. An element that has been passed over is ripe, stays
ripe, and is chosen on the next visit: a walk over a ring with a candidate on it ends within
two rounds.
-/

namespace Pintos.Base

universe u v

variable {σ : Type u} {α : Type v} {visit : σ → α → Option σ} {s t : σ}

/-- A run that ends early ends at the first input that is refused. -/
theorem exists_of_run_eq_none {is : List α} (h : run visit s is = none) :
    ∃ pre i t, (pre ++ [i]) <+: is ∧ run visit s pre = some t ∧ visit t i = none := by
  induction is generalizing s with
  | nil => cases h
  | cons i is ih =>
    rw [run_cons] at h
    cases hi : visit s i with
    | none => exact ⟨[], i, s, by simp, rfl, hi⟩
    | some t =>
      rw [hi, Option.bind_some] at h
      obtain ⟨pre, j, u, hpre, hrun, hj⟩ := ih h
      refine ⟨i :: pre, j, u, (List.prefix_cons_inj i).mpr hpre, ?_, hj⟩
      rw [run_cons, hi, Option.bind_some, hrun]

/-- What a walk needs to end: a visit keeps the invariant, makes a candidate ripe, and keeps
ripe elements ripe; a ripe candidate is never passed over. -/
structure SecondChance (visit : σ → α → Option σ) (I : σ → Prop) (Candidate : α → Prop)
    (Ripe : σ → α → Prop) : Prop where
  keeps : ∀ s a t, I s → visit s a = some t → I t
  ripens : ∀ s a t, I s → Candidate a → visit s a = some t → Ripe t a
  lasts : ∀ s a t b, I s → visit s a = some t → Ripe s b → Ripe t b
  chosen : ∀ s a, I s → Candidate a → Ripe s a → visit s a = none

variable {I : σ → Prop} {Candidate : α → Prop} {Ripe : σ → α → Prop}

private theorem SecondChance.run (h : SecondChance visit I Candidate Ripe) {as : List α} (hs : I s)
    (hr : Base.run visit s as = some t) : I t ∧ ∀ b, Ripe s b → Ripe t b := by
  induction as generalizing s with
  | nil =>
    cases hr
    exact ⟨hs, fun _ hb => hb⟩
  | cons a as ih =>
    obtain ⟨m, hm, hrest⟩ := run_cons_some hr
    obtain ⟨ht, hripe⟩ := ih (h.keeps s a m hs hm) hrest
    exact ⟨ht, fun b hb => hripe b (h.lasts s a m b hs hm hb)⟩

/-- A walk over a list with a candidate leaves the candidate ripe, if it passes over all. -/
theorem SecondChance.ripe_of_mem (h : SecondChance visit I Candidate Ripe) {as : List α} {a : α}
    (hs : I s) (ha : a ∈ as) (hc : Candidate a) (hr : Base.run visit s as = some t) :
    Ripe t a := by
  obtain ⟨pre, post, rfl⟩ := List.append_of_mem ha
  obtain ⟨m, hpre, hpost⟩ := run_append_some hr
  obtain ⟨m', hm', hrest⟩ := run_cons_some hpost
  have hm := (h.run hs hpre).1
  exact (h.run (h.keeps m a m' hm hm') hrest).2 a (h.ripens m a m' hm hc hm')

/-- Two rounds over a ring with a candidate do not pass over everything. -/
theorem SecondChance.two_rounds (h : SecondChance visit I Candidate Ripe) {ring : List α}
    {a : α} (hs : I s) (ha : a ∈ ring) (hc : Candidate a) :
    Base.run visit s (ring ++ ring) = none := by
  cases hr : Base.run visit s (ring ++ ring) with
  | none => rfl
  | some t =>
    obtain ⟨m, hfirst, hsecond⟩ := run_append_some hr
    have hm := (h.run hs hfirst).1
    have hripe := h.ripe_of_mem hs ha hc hfirst
    obtain ⟨pre, post, rfl⟩ := List.append_of_mem ha
    obtain ⟨m1, hpre, hpost⟩ := run_append_some hsecond
    obtain ⟨m2, hm2, -⟩ := run_cons_some hpost
    obtain ⟨hm1, hlast⟩ := h.run hm hpre
    rw [h.chosen m1 a hm1 hc (hlast a hripe)] at hm2
    cases hm2

end Pintos.Base

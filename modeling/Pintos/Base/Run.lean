import Mathlib.Order.Defs.Unbundled

/-!
# Runs of a partial step function

A step function answers `none` where the system stops, or where the input is not
enabled. A run folds it over a finite sequence of inputs. Conditions on the steps of a
run are stated with `Along`; one invariant rule serves conditional and unconditional
results, and one simulation rule compares two systems over the same inputs.
-/

namespace Pintos.Base

universe u v w

variable {σ : Type u} {ι : Type v} {α : Type w}

/-- Fold a partial step function over a sequence of inputs. -/
def run (step : σ → ι → Option σ) : σ → List ι → Option σ
  | s, [] => some s
  | s, i :: is => (step s i).bind fun t => run step t is

/-- Every step that the run takes meets `cond` in the state before it. -/
def Along (step : σ → ι → Option σ) (cond : σ → ι → Prop) : σ → List ι → Prop
  | _, [] => True
  | s, i :: is => cond s i ∧ ∀ t, step s i = some t → Along step cond t is

/-- Whether a condition that can be tested holds along a run can be tested. -/
instance Along.decidable (step : σ → ι → Option σ) (cond : σ → ι → Prop)
    [∀ s i, Decidable (cond s i)] (s : σ) : (is : List ι) → Decidable (Along step cond s is)
  | [] => isTrue trivial
  | i :: is =>
    match h : step s i with
    | none => decidable_of_iff (cond s i) ⟨fun hc => ⟨hc, fun _ ht => by simp [h] at ht⟩, fun ha => ha.1⟩
    | some t =>
      have := Along.decidable step cond t is
      decidable_of_iff (cond s i ∧ Along step cond t is)
        ⟨fun hc => ⟨hc.1, fun u hu => by cases h.symm.trans hu; exact hc.2⟩,
          fun ha => ⟨ha.1, ha.2 t h⟩⟩

@[simp] theorem run_nil (step : σ → ι → Option σ) (s : σ) : run step s [] = some s := rfl

theorem run_cons (step : σ → ι → Option σ) (s : σ) (i : ι) (is : List ι) :
    run step s (i :: is) = (step s i).bind fun t => run step t is := rfl

/-- A nonempty run that completes passes through the state after its first step. -/
theorem run_cons_some {step : σ → ι → Option σ} {s t : σ} {i : ι} {is : List ι}
    (h : run step s (i :: is) = some t) :
    ∃ m, step s i = some m ∧ run step m is = some t := by
  rw [run_cons, Option.bind_eq_some_iff] at h
  exact h

theorem run_reaches (step : σ → ι → Option σ) (s : σ) (is : List ι) (p : σ → Bool)
    (h : (run step s is).any p = true) : ∃ t, run step s is = some t ∧ p t = true := by
  cases hr : run step s is with
  | none =>
    rw [hr] at h
    cases h
  | some t =>
    rw [hr] at h
    exact ⟨t, rfl, h⟩

theorem run_eq_none_of_mem {step : σ → ι → Option σ} {i : ι} {is : List ι}
    (hi : i ∈ is) (h : ∀ s, step s i = none) (s : σ) : run step s is = none := by
  induction is generalizing s with
  | nil => cases hi
  | cons j is ih =>
    rw [run_cons]
    rcases List.mem_cons.mp hi with rfl | hi
    · rw [h s]
      rfl
    · cases step s j with
      | none => rfl
      | some t => exact ih hi t

theorem run_append (step : σ → ι → Option σ) (s : σ) (is js : List ι) :
    run step s (is ++ js) = (run step s is).bind fun t => run step t js := by
  induction is generalizing s with
  | nil => rfl
  | cons i is ih =>
    simp only [List.cons_append, run_cons]
    cases step s i with
    | none => rfl
    | some t => exact ih t

/-- A composed run that completes passes through the state between its parts. -/
theorem run_append_some {step : σ → ι → Option σ} {s t : σ} {is js : List ι}
    (h : run step s (is ++ js) = some t) :
    ∃ m, run step s is = some m ∧ run step m js = some t := by
  rw [run_append, Option.bind_eq_some_iff] at h
  exact h

/-- Two conditions that agree where a third holds agree along a run along which it holds. -/
theorem along_congr {step : σ → ι → Option σ} {C D D' : σ → ι → Prop}
    (h : ∀ s i, C s i → (D s i ↔ D' s i)) {s : σ} {is : List ι} (hc : Along step C s is) :
    Along step D s is ↔ Along step D' s is := by
  induction is generalizing s with
  | nil => exact Iff.rfl
  | cons i is ih =>
    exact and_congr (h s i hc.1) (forall₂_congr fun t ht => ih (hc.2 t ht))

/-- A condition on inputs alone holds along a run if every input meets it. -/
theorem along_of_forall {C : ι → Prop} (step : σ → ι → Option σ) (s : σ) {is : List ι}
    (h : ∀ i ∈ is, C i) : Along step (fun _ i => C i) s is := by
  induction is generalizing s with
  | nil => exact True.intro
  | cons i is ih =>
    exact ⟨h i List.mem_cons_self, fun t _ => ih t fun j hj => h j (List.mem_cons_of_mem i hj)⟩

/-- What every step meeting the condition preserves holds at the end of the run. -/
theorem run_preserves_along {step : σ → ι → Option σ} {cond : σ → ι → Prop}
    {P : σ → Prop}
    (hstep : ∀ s i t, P s → cond s i → step s i = some t → P t)
    {s t : σ} {is : List ι} (hs : P s) (hc : Along step cond s is)
    (hr : run step s is = some t) : P t := by
  induction is generalizing s with
  | nil =>
    cases hr
    exact hs
  | cons i is ih =>
    obtain ⟨m, hm, hrest⟩ := run_cons_some hr
    exact ih (hstep s i m hs hc.1 hm) (hc.2 m hm) hrest

theorem run_preserves {step : σ → ι → Option σ} {P : σ → Prop}
    (hstep : ∀ s i t, P s → step s i = some t → P t)
    {s t : σ} {is : List ι} (hs : P s) (hr : run step s is = some t) : P t :=
  run_preserves_along (fun s i t hi _ h => hstep s i t hi h) hs
    (along_of_forall (C := fun _ => True) step s fun _ _ => True.intro) hr

/-- Where a step that fails the condition leads to `Q`, and `Q` lasts, every run that fails the
condition somewhere ends in `Q`. -/
theorem run_reaches_of_not_along {step : σ → ι → Option σ} {cond : σ → ι → Prop}
    {P Q : σ → Prop}
    (hP : ∀ s i t, P s → step s i = some t → P t)
    (hfail : ∀ s i t, P s → ¬ cond s i → step s i = some t → Q t)
    (hQ : ∀ s i t, P s → Q s → step s i = some t → Q t)
    {s t : σ} {is : List ι} (hs : P s) (hc : ¬ Along step cond s is)
    (hr : run step s is = some t) : Q t := by
  induction is generalizing s with
  | nil => exact absurd True.intro hc
  | cons i is ih =>
    obtain ⟨m, hm, hrest⟩ := run_cons_some hr
    by_cases hcond : cond s i
    · refine ih (hP s i m hs hm) (fun hal => hc ⟨hcond, fun m' hm' => ?_⟩) hrest
      rw [hm, Option.some.injEq] at hm'
      exact hm' ▸ hal
    · have hend : P t ∧ Q t := run_preserves (P := fun s => P s ∧ Q s)
        (fun s i t h hst => ⟨hP s i t h.1 hst, hQ s i t h.1 h.2 hst⟩)
        ⟨hP s i m hs hm, hfail s i m hs hcond hm⟩ hrest
      exact hend.2

/-- Where a step keeps `P` exactly if it meets the condition, all states of a run have `P` exactly
if all its steps meet the condition. -/
theorem forall_prefix_iff_along {step : σ → ι → Option σ} {cond : σ → ι → Prop}
    {I P : σ → Prop}
    (hI : ∀ s i t, I s → P s → step s i = some t → I t)
    (hP : ∀ s i t, I s → P s → step s i = some t → (P t ↔ cond s i))
    {s t : σ} {is : List ι} (hi : I s) (hs : P s) (hr : run step s is = some t) :
    (∀ pre m, pre <+: is → run step s pre = some m → P m) ↔ Along step cond s is := by
  induction is generalizing s with
  | nil =>
    refine ⟨fun _ => True.intro, fun _ pre m hpre hm => ?_⟩
    rw [List.prefix_nil.mp hpre] at hm
    cases hm
    exact hs
  | cons i is ih =>
    obtain ⟨m, hm, hrest⟩ := run_cons_some hr
    have hstep := hP s i m hi hs hm
    constructor
    · intro h
      have hPm : P m := h [i] m (by simp) (by simp [run_cons, hm])
      refine ⟨hstep.mp hPm, fun m' hm' => ?_⟩
      rw [hm, Option.some.injEq] at hm'
      subst hm'
      refine (ih (hI s i m hi hs hm) hPm hrest).mp fun pre n hpre hn => ?_
      apply h (i :: pre) n (by simpa using hpre)
      rw [run_cons, hm]
      exact hn
    · intro h pre n hpre hn
      cases pre with
      | nil =>
        cases hn
        exact hs
      | cons j pre =>
        obtain ⟨rfl, hpre'⟩ := List.cons_prefix_cons.mp hpre
        obtain ⟨m', hm', hn⟩ := run_cons_some hn
        rw [hm, Option.some.injEq] at hm'
        subst hm'
        exact (ih (hI s j m hi hs hm) (hstep.mpr h.1) hrest).mpr (h.2 m hm) pre n hpre' hn

/-- The events of a run, one list for each step. -/
def trace (step : σ → ι → Option σ) (log : σ → ι → List α) : σ → List ι → List α
  | _, [] => []
  | s, i :: is => log s i ++ (match step s i with
    | some t => trace step log t is
    | none => [])

/-- What every step preserves together with the events so far holds at the end of every run. -/
theorem run_preserves_trace {step : σ → ι → Option σ} {cond : σ → ι → Prop}
    {log : σ → ι → List α} {P : σ → List α → Prop}
    (hstep : ∀ s i t es, P s es → cond s i → step s i = some t → P t (es ++ log s i))
    {s t : σ} {is : List ι} {es : List α} (hs : P s es) (hc : Along step cond s is)
    (hr : run step s is = some t) : P t (es ++ trace step log s is) := by
  induction is generalizing s es with
  | nil =>
    cases hr
    rw [trace, List.append_nil]
    exact hs
  | cons i is ih =>
    obtain ⟨m, hm, hrest⟩ := run_cons_some hr
    have hend := ih (hstep s i m es hs hc.1 hm) (hc.2 m hm) hrest
    rw [List.append_assoc] at hend
    rw [trace, hm]
    exact hend

/-- Forward simulation by a total specification: a relation that every step preserves
relates the end of the run to the specification folded over the same inputs. -/
theorem run_simulates_along {step : σ → ι → Option σ} {C : σ → ι → Prop}
    {spec : α → ι → α} {R : σ → α → Prop}
    (hstep : ∀ s i t a, R s a → C s i → step s i = some t → R t (spec a i))
    {s t : σ} {a : α} {is : List ι} (hs : R s a) (hc : Along step C s is)
    (hr : run step s is = some t) : R t (is.foldl spec a) := by
  induction is generalizing s a with
  | nil =>
    cases hr
    exact hs
  | cons i is ih =>
    obtain ⟨m, hm, hrest⟩ := run_cons_some hr
    exact ih (hstep s i m a hs hc.1 hm) (hc.2 m hm) hrest

end Pintos.Base

import Mathlib.Data.List.Range

/-!
# Loops that stop at the first failure

A loop runs a partial body on the elements of a list until the body answers `false`. The rules
say what such a loop preserves, what it has established when it ends with `true`, and when it
does end so.
-/

namespace Pintos.Base

universe u v

variable {σ : Type u} {α : Type v}

/-- Run the body on each element until it fails. -/
def loopAll (body : α → σ → Option (Bool × σ)) : List α → σ → Option (Bool × σ)
  | [], s => some (true, s)
  | a :: as, s => (body a s).bind fun r => if r.1 then loopAll body as r.2 else some (false, r.2)

variable {body : α → σ → Option (Bool × σ)} {s t : σ} {ok : Bool}

private theorem loopAll_cons_some {a : α} {as : List α}
    (h : loopAll body (a :: as) s = some (ok, t)) :
    (body a s = some (false, t) ∧ ok = false) ∨
      ∃ m, body a s = some (true, m) ∧ loopAll body as m = some (ok, t) := by
  simp only [loopAll, Option.bind_eq_some_iff] at h
  obtain ⟨⟨b, m⟩, hb, h⟩ := h
  cases b with
  | true => exact .inr ⟨m, hb, h⟩
  | false =>
    cases h
    exact .inl ⟨hb, rfl⟩

theorem loopAll_preserves {P : σ → Prop} {l : List α}
    (hbody : ∀ a ∈ l, ∀ s ok t, P s → body a s = some (ok, t) → P t) (hs : P s)
    (h : loopAll body l s = some (ok, t)) : P t := by
  induction l generalizing s with
  | nil =>
    cases h
    exact hs
  | cons a as ih =>
    rcases loopAll_cons_some h with ⟨hb, -⟩ | ⟨m, hb, h⟩
    · exact hbody a List.mem_cons_self s false t hs hb
    · exact ih (fun b hb' => hbody b (List.mem_cons_of_mem a hb'))
        (hbody a List.mem_cons_self s true m hs hb) h

/-- What each round establishes for its element, and no round destroys, holds for all elements
when the loop has not failed. -/
theorem loopAll_forall {P : σ → Prop} {Q : α → σ → Prop} {l : List α}
    (hbody : ∀ a s ok t, P s → body a s = some (ok, t) → P t ∧ (ok = true → Q a t))
    (hkeep : ∀ a b s ok t, P s → Q a s → body b s = some (ok, t) → Q a t) (hs : P s)
    (h : loopAll body l s = some (true, t)) : ∀ a ∈ l, Q a t := by
  induction l generalizing s with
  | nil => simp
  | cons a as ih =>
    rcases loopAll_cons_some h with ⟨-, hf⟩ | ⟨m, hb, h⟩
    · cases hf
    · obtain ⟨hm, hq⟩ := hbody a s true m hs hb
      have hend : P t ∧ Q a t := loopAll_preserves (P := fun s => P s ∧ Q a s)
        (fun b _ s ok t hps hb' => ⟨(hbody b s ok t hps.1 hb').1, hkeep a b s ok t hps.1 hps.2 hb'⟩)
        ⟨hm, hq rfl⟩ h
      intro b hb'
      rcases List.mem_cons.mp hb' with rfl | hb'
      · exact hend.2
      · exact ih hm h b hb'

/-- A loop over consecutive numbers carries an invariant that counts its rounds. -/
theorem loopAll_range' {body : Nat → σ → Option (Bool × σ)} {I : Nat → σ → Prop} {K : σ → Prop}
    {start n : Nat}
    (hok : ∀ j s t, start ≤ j → j < start + n → I j s → body j s = some (true, t) → I (j + 1) t)
    (hfail : ∀ j s t, start ≤ j → j < start + n → I j s → body j s = some (false, t) → K t)
    (hs : I start s) (h : loopAll body (List.range' start n) s = some (ok, t)) :
    (ok = true → I (start + n) t) ∧ (ok = false → K t) := by
  induction n generalizing start s with
  | zero =>
    cases h
    exact ⟨fun _ => hs, by simp⟩
  | succ n ih =>
    rw [List.range'_succ] at h
    rcases loopAll_cons_some h with ⟨hb, rfl⟩ | ⟨m, hb, h⟩
    · exact ⟨by simp, fun _ => hfail start s t le_rfl (by omega) hs hb⟩
    · have hm := hok start s m le_rfl (by omega) hs hb
      have hrest := ih (fun j s t hj hj' => hok j s t (by omega) (by omega))
        (fun j s t hj hj' => hfail j s t (by omega) (by omega)) hm h
      rwa [Nat.add_right_comm] at hrest

theorem loopAll_true {P : σ → Prop} {l : List α}
    (hbody : ∀ a ∈ l, ∀ s, P s → ∃ t, body a s = some (true, t) ∧ P t) (hs : P s) :
    ∃ t, loopAll body l s = some (true, t) ∧ P t := by
  induction l generalizing s with
  | nil => exact ⟨s, rfl, hs⟩
  | cons a as ih =>
    obtain ⟨m, hb, hm⟩ := hbody a List.mem_cons_self s hs
    obtain ⟨t, h, ht⟩ := ih (fun b hb' => hbody b (List.mem_cons_of_mem a hb')) hm
    exact ⟨t, by simp [loopAll, hb, h], ht⟩

end Pintos.Base

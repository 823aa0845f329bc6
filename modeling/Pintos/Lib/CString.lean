import Mathlib.Data.List.TakeWhile
import Pintos.Base.Words
import Pintos.Lib.Bytes

/-!
# Strings in memory

`strlen`, `strlcpy` and `strtok_r`. A scan for the terminator runs on fuel, and the lemmas say
that any fuel above the length of the string is enough.
Source `lib/string.c:234–343`.
-/

namespace Pintos.Lib

open Pintos.Base

/-- The text of a NUL-terminated string. -/
structure CString where
  bytes : List UInt8
  noNul : 0 ∉ bytes

/-- The NUL-terminated string at address `p` has this text. -/
def StrAt (mem : Bytes) : (p : Nat) → List UInt8 → Prop
  | p, [] => mem p = 0
  | p, c :: l => mem p = c ∧ c ≠ 0 ∧ StrAt mem (p + 1) l

/-- `strlen`, `lib/string.c:300–309`. -/
def strlen (mem : Bytes) : (fuel p : Nat) → Option Nat
  | 0, _ => none
  | fuel + 1, p => if mem p = 0 then some 0 else (strlen mem fuel (p + 1)).map (· + 1)

/-- `strlcpy` to the start of `dst` for a positive `size`, `lib/string.c:325–343`. -/
def strlcpy (dst : Bytes) (src : CString) (size : Nat) : Bytes :=
  let dstLen := if src.bytes.length < size - 1 then src.bytes.length else size - 1
  Function.update (memcpy dst 0 dstLen fun j => src.bytes.getD j 0) dstLen 0

/-- Whether `strchr` finds the byte; it always finds the terminator. -/
def strchr (s : List UInt8) (c : UInt8) : Bool := c == 0 || s.contains c

/-- The first loop of `strtok_r`: the next byte that is no delimiter, or the end of the
string, `lib/string.c:249–261`. -/
def skipDelimiters (delimiters : List UInt8) (mem : Bytes) : (fuel s : Nat) → Option (Bool × Nat)
  | 0, _ => none
  | fuel + 1, s =>
    if strchr delimiters (mem s) then
      if mem s = 0 then some (false, s) else skipDelimiters delimiters mem fuel (s + 1)
    else some (true, s)

/-- The second loop of `strtok_r`, `lib/string.c:264–266`. -/
def skipToken (delimiters : List UInt8) (mem : Bytes) : (fuel s : Nat) → Option Nat
  | 0, _ => none
  | fuel + 1, s =>
    if strchr delimiters (mem s) then some s else skipToken delimiters mem fuel (s + 1)

/-- `strtok_r` from position `s`: the token if there is one, the position to go on from and the
memory, `lib/string.c:234–275`. -/
def strtokR (delimiters : List UInt8) (fuel s : Nat) (mem : Bytes) :
    Option (Option Nat × Nat × Bytes) := do
  let (found, token) ← skipDelimiters delimiters mem fuel s
  if found then
    let s ← skipToken delimiters mem fuel token
    if mem s ≠ 0 then some (some token, s + 1, Function.update mem s 0)
    else some (some token, s, mem)
  else some (none, token, mem)

section StrAt

variable {mem mem' : Bytes} {p q : Nat} {l a b : List UInt8} {c : UInt8}

theorem StrAt.congr (h : StrAt mem p l) (heq : ∀ j ≤ l.length, mem' (q + j) = mem (p + j)) :
    StrAt mem' q l := by
  induction l generalizing p q with
  | nil => exact (heq 0 (Nat.zero_le _)).trans h
  | cons c l ih =>
    refine ⟨(heq 0 (Nat.zero_le _)).trans h.1, h.2.1, ih h.2.2 fun j hj => ?_⟩
    rw [Nat.add_assoc, Nat.add_assoc, Nat.add_comm 1 j]
    exact heq (j + 1) (Nat.succ_le_succ hj)

private theorem StrAt.unique (h : StrAt mem p a) (h' : StrAt mem p b) : a = b := by
  induction a generalizing p b with
  | nil =>
    cases b with
    | nil => rfl
    | cons d b => exact absurd (h'.1.symm.trans h) h'.2.1
  | cons c a ih =>
    cases b with
    | nil => exact absurd (h.1.symm.trans h') h.2.1
    | cons d b => rw [ih h.2.2 h'.2.2, ← h.1, ← h'.1]

theorem forall₂_strAt_unique {ps : List Nat} {as bs : List (List UInt8)}
    (h : List.Forall₂ (StrAt mem) ps as) (h' : List.Forall₂ (StrAt mem) ps bs) : as = bs := by
  induction h generalizing bs with
  | nil => exact (List.forall₂_nil_left_iff.mp h').symm
  | cons hp _ ih =>
    cases h' with
    | cons hp' h' => rw [hp.unique hp', ih h']

private theorem StrAt.drop (h : StrAt mem p (a ++ b)) : StrAt mem (p + a.length) b := by
  induction a generalizing p with
  | nil => exact h
  | cons c a ih =>
    have hrest := ih h.2.2
    rwa [Nat.add_assoc, Nat.add_comm 1] at hrest

private theorem StrAt.cut (h : StrAt mem p (a ++ b))
    (heq : ∀ j < a.length, mem' (p + j) = mem (p + j))
    (hz : mem' (p + a.length) = 0) : StrAt mem' p a := by
  induction a generalizing p with
  | nil => exact hz
  | cons c a ih =>
    refine ⟨(heq 0 (Nat.zero_lt_succ _)).trans h.1, h.2.1, ih h.2.2 (fun j hj => ?_) ?_⟩
    · rw [Nat.add_assoc, Nat.add_comm 1 j]
      exact heq (j + 1) (Nat.succ_lt_succ hj)
    · rw [Nat.add_assoc, Nat.add_comm 1]
      exact hz

theorem StrAt.strlen_eq {fuel : Nat} (h : StrAt mem p l) (hf : l.length < fuel) :
    strlen mem fuel p = some l.length := by
  induction l generalizing p fuel with
  | nil =>
    obtain ⟨fuel, rfl⟩ := Nat.exists_eq_add_one.mpr hf
    exact if_pos h
  | cons c l ih =>
    obtain ⟨fuel, rfl⟩ := Nat.exists_eq_add_one.mpr (Nat.zero_lt_of_lt hf)
    have hne : mem p ≠ 0 := fun hz => h.2.1 (h.1.symm.trans hz)
    have hrest := ih h.2.2 (Nat.lt_of_succ_lt_succ hf)
    simp only [strlen, if_neg hne, hrest, Option.map_some, List.length_cons]

/-- A list laid out in memory in front of a terminator is a string. -/
theorem strAt_of_getD (hl : 0 ∉ l) (heq : ∀ j < l.length, mem (p + j) = l.getD j 0)
    (hz : mem (p + l.length) = 0) : StrAt mem p l := by
  induction l generalizing p with
  | nil => exact hz
  | cons c l ih =>
    refine ⟨heq 0 (Nat.zero_lt_succ _), fun hc => hl (hc ▸ List.mem_cons_self),
      ih (fun h => hl (List.mem_cons_of_mem c h)) (fun j hj => ?_) ?_⟩
    · have hj' := heq (j + 1) (Nat.succ_lt_succ hj)
      rwa [List.getD_cons_succ, Nat.add_comm j, ← Nat.add_assoc] at hj'
    · rwa [List.length_cons, Nat.add_comm l.length, ← Nat.add_assoc] at hz

end StrAt

theorem strAt_strlcpy (dst : Bytes) (src : CString) (n : Nat) :
    StrAt (strlcpy dst src (n + 1)) 0 (src.bytes.take n) := by
  have hlen : (src.bytes.take n).length = if src.bytes.length < n then src.bytes.length else n := by
    rw [List.length_take]
    split <;> omega
  unfold strlcpy
  rw [Nat.add_sub_cancel, ← hlen]
  apply strAt_of_getD
  · exact fun h => src.noNul (List.mem_of_mem_take h)
  · intro j hj
    have htake : j < n := by
      rw [List.length_take] at hj
      omega
    rw [Nat.zero_add, Function.update_of_ne (by omega), memcpy_of_mem (by omega) (by omega),
      Nat.sub_zero, List.getD_eq_getElem?_getD, List.getD_eq_getElem?_getD,
      List.getElem?_take_of_lt htake]
  · rw [Nat.zero_add, Function.update_self]

section strtok

variable {delimiters : List UInt8} {mem : Bytes} {s fuel : Nat} {l : List UInt8}

private theorem strchr_of_ne_zero {c : UInt8} (h : c ≠ 0) :
    strchr delimiters c = delimiters.contains c := by
  simp [strchr, h]

private theorem skipDelimiters_eq (h : StrAt mem s l) (hf : l.length < fuel) :
    skipDelimiters delimiters mem fuel s =
      some (!(l.dropWhile delimiters.contains).isEmpty,
        s + (l.takeWhile delimiters.contains).length) := by
  induction l generalizing s fuel with
  | nil =>
    obtain ⟨fuel, rfl⟩ := Nat.exists_eq_add_one.mpr hf
    have hz : mem s = 0 := h
    simp [skipDelimiters, strchr, hz]
  | cons c l ih =>
    obtain ⟨fuel, rfl⟩ := Nat.exists_eq_add_one.mpr (Nat.zero_lt_of_lt hf)
    have hrest := ih h.2.2 (Nat.lt_of_succ_lt_succ hf)
    rw [skipDelimiters, h.1, strchr_of_ne_zero h.2.1, if_neg h.2.1, hrest, List.takeWhile_cons,
      List.dropWhile_cons]
    cases hc : delimiters.contains c with
    | false => rfl
    | true =>
      simp only [if_true, List.length_cons]
      rw [Nat.add_assoc, Nat.add_comm 1]

private theorem skipToken_eq (h : StrAt mem s l) (hf : l.length < fuel) :
    skipToken delimiters mem fuel s =
      some (s + (l.takeWhile fun c => !delimiters.contains c).length) := by
  induction l generalizing s fuel with
  | nil =>
    obtain ⟨fuel, rfl⟩ := Nat.exists_eq_add_one.mpr hf
    have hz : mem s = 0 := h
    simp [skipToken, strchr, hz]
  | cons c l ih =>
    obtain ⟨fuel, rfl⟩ := Nat.exists_eq_add_one.mpr (Nat.zero_lt_of_lt hf)
    have hrest := ih h.2.2 (Nat.lt_of_succ_lt_succ hf)
    rw [skipToken, h.1, strchr_of_ne_zero h.2.1, hrest, List.takeWhile_cons]
    cases hc : delimiters.contains c with
    | true => rfl
    | false =>
      simp only [Bool.not_false, if_true, List.length_cons]
      rw [Nat.add_assoc, Nat.add_comm 1]
      rfl

/-- What `strtok_r` has done when it returns a token: `word` starts at `token`, `rest` is left to
be split from `save`, and nothing up to the start has changed. -/
structure TokenCut (delimiters : List UInt8) (mem : Bytes) (s : Nat) (l : List UInt8)
    (token save : Nat) (mem' : Bytes) (word rest : List UInt8) : Prop where
  words_eq : words delimiters.contains l = word :: words delimiters.contains rest
  strWord : StrAt mem' token word
  strRest : StrAt mem' save rest
  shorter : rest.length < l.length
  start : s ≤ token
  apart : token + word.length ≤ save
  kept : ∀ j ≤ s, mem' j = mem j

/-- The end of `strtok_r` for a token that starts with `w` and ends where `w` does. -/
private theorem tokenCut_of_run {w u : List UInt8} {token : Nat} (h : StrAt mem token (w ++ u))
    (hs : s ≤ token) (hw : ∀ c ∈ w, delimiters.contains c = false) (hne : w ≠ [])
    (hu : ∀ c ∈ u.head?, delimiters.contains c = true)
    (hl : words delimiters.contains l = words delimiters.contains (w ++ u))
    (hlen : (w ++ u).length ≤ l.length) :
    ∃ save mem' rest,
      (if mem (token + w.length) ≠ 0 then
        some (some token, token + w.length + 1, Function.update mem (token + w.length) 0)
      else some (some token, token + w.length, mem)) = some (some token, save, mem') ∧
      TokenCut delimiters mem s l token save mem' w rest := by
  have hend := h.drop
  have hpos : 0 < w.length := List.length_pos_iff.mpr hne
  rw [List.length_append] at hlen
  cases u with
  | nil =>
    have hz : mem (token + w.length) = 0 := hend
    rw [List.append_nil] at hl
    refine ⟨_, _, [], if_neg fun hn => hn hz, ?_, h.cut (fun _ _ => rfl) hz, hz, ?_, hs,
      Nat.le_refl _, fun _ _ => rfl⟩
    · rw [hl, words_of_forall_not hw hne, words_nil]
    · rw [List.length_nil]
      omega
  | cons sep ys =>
    have hsep : delimiters.contains sep = true := hu sep rfl
    have hnz : mem (token + w.length) ≠ 0 := fun hz => hend.2.1 (hend.1.symm.trans hz)
    refine ⟨_, _, ys, if_pos hnz, ?_, ?_, ?_, ?_, hs, Nat.le_succ _, fun j hj => ?_⟩
    · rw [hl, words_append_cons_of_forall_not hw hne hsep]
    · apply h.cut
      · intro j hj
        rw [Function.update_of_ne (by omega)]
      · rw [Function.update_self]
    · apply hend.2.2.congr
      intro j _
      rw [Function.update_of_ne (by omega)]
    · rw [List.length_cons] at hlen
      omega
    · rw [Function.update_of_ne (by omega)]

theorem strtokR_spec (h : StrAt mem s l) (hf : l.length < fuel) :
    (words delimiters.contains l = [] ∧
      ∃ save, strtokR delimiters fuel s mem = some (none, save, mem)) ∨
    ∃ token save mem' word rest,
      strtokR delimiters fuel s mem = some (some token, save, mem') ∧
        TokenCut delimiters mem s l token save mem' word rest := by
  have hsplit : l.takeWhile delimiters.contains ++ l.dropWhile delimiters.contains = l :=
    List.takeWhile_append_dropWhile
  have hdelims : ∀ c ∈ l.takeWhile delimiters.contains, delimiters.contains c = true :=
    fun c hc => List.mem_takeWhile_imp hc
  have hskip := @skipDelimiters_eq delimiters _ _ _ _ h hf
  have hr : StrAt mem (s + (l.takeWhile delimiters.contains).length)
      (l.dropWhile delimiters.contains) := by
    apply StrAt.drop
    rwa [hsplit]
  have hwords : words delimiters.contains l =
      words delimiters.contains (l.dropWhile delimiters.contains) := by
    have hfront := @words_append_left _ _ _ (l.dropWhile delimiters.contains) hdelims
    rwa [hsplit] at hfront
  have hlen : (l.dropWhile delimiters.contains).length ≤ l.length := List.length_dropWhile_le _ _
  unfold strtokR
  rw [hskip]
  cases hdrop : l.dropWhile delimiters.contains with
  | nil =>
    left
    rw [hwords, hdrop]
    exact ⟨words_nil, _, rfl⟩
  | cons c r =>
    right
    have hc : delimiters.contains c = false := by
      have hhead := List.head?_dropWhile_not delimiters.contains l
      rw [hdrop] at hhead
      simpa using hhead
    rw [hdrop] at hr hwords hlen
    have htoken := @skipToken_eq delimiters _ _ _ _ hr (Nat.lt_of_le_of_lt hlen hf)
    have hrun : (c :: r).takeWhile (fun c => !delimiters.contains c) ++
        (c :: r).dropWhile (fun c => !delimiters.contains c) = c :: r :=
      List.takeWhile_append_dropWhile
    rw [← hrun] at hr hwords hlen
    have hcut := tokenCut_of_run hr (Nat.le_add_right s _) ?_ ?_ ?_ hwords hlen
    · obtain ⟨save, mem', rest, heq, hcut⟩ := hcut
      exact ⟨_, save, mem', _, rest, by simpa [htoken] using heq, hcut⟩
    · intro x hx
      have := List.mem_takeWhile_imp hx
      simpa using this
    · rw [List.takeWhile_cons, hc]
      simp
    · intro x hx
      have := List.head?_dropWhile_not (fun c => !delimiters.contains c) (c :: r)
      rw [hx] at this
      simpa using this

end strtok

end Pintos.Lib

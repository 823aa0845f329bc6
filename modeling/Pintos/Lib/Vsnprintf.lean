import Mathlib.Data.List.GetD
import Pintos.Lib.Stdio

/-!
# Reading the format and storing the output

How far `__vprintf` reads its format, and what `vsnprintf` stores.
Source `lib/stdio.c:25–52, 156–460`.
-/

namespace Pintos.Lib.Stdio

/-! ## Complete formats -/

/-- What the arguments of a conversion have to begin with. -/
inductive ArgKind
  | nothing
  | word
  | dword
  | string

/-- The arguments behind one of this kind. -/
def ArgKind.take : ArgKind → List Arg → Option (List Arg)
  | .nothing, args => some args
  | .word, .word _ :: args | .dword, .dword _ :: args | .string, .string _ :: args => some args
  | _, _ => none

/-- The text after a number or `*`. -/
def skipNumber : List Char → List Char
  | [] => []
  | ch :: format => if ch = '*' then format else (ch :: format).dropWhile isDigit

/-- The text after a precision. -/
def skipPrecision : List Char → List Char
  | [] => []
  | ch :: format => if ch = '.' then skipNumber format else ch :: format

/-- The text after a second character of a type. -/
def skipTwice (ch : Char) : List Char → List Char
  | [] => []
  | ch' :: format => if ch' = ch then format else ch' :: format

/-- The text after a type. -/
def skipType : List Char → List Char
  | 'h' :: format => skipTwice 'h' format
  | 'l' :: format => skipTwice 'l' format
  | 'j' :: format => format
  | 't' :: format => format
  | 'z' :: format => format
  | format => format

/-- The text from the conversion character on. -/
def skipSpec (format : List Char) : List Char :=
  skipType (skipPrecision (skipNumber (format.dropWhile isFlag)))

/-- Every conversion specification of the format has its conversion character. -/
inductive Complete : List Char → Prop
  | nil : Complete []
  | literal {ch : Char} {format : List Char} (hch : ch ≠ '%') (h : Complete format) :
    Complete (ch :: format)
  | percent {format : List Char} (h : Complete format) : Complete ('%' :: '%' :: format)
  | spec {format rest : List Char} {conv : Char} (hne : format.head? ≠ some '%')
    (hskip : skipSpec format = conv :: rest) (h : Complete rest) : Complete ('%' :: format)

/-- The format with its terminator. -/
def terminated (format : List Char) : List Char := format ++ ['\x00']

section

variable {format rest : List Char}

/-- What a run comes to. -/
def Ends (format : List Char) (r : Except Fault (List Char)) : Prop :=
  (Complete format ∧ ∃ out, r = .ok out) ∨ ¬ Complete format ∧ r = .error .beyond

private theorem Ends.map {r : Except Fault (List Char)} (h : Ends rest r)
    (hcomplete : Complete format ↔ Complete rest) (out : List Char) :
    Ends format (r.map (out ++ ·)) := by
  rcases h with ⟨hrest, out', rfl⟩ | ⟨hrest, rfl⟩
  · exact .inl ⟨hcomplete.mpr hrest, out ++ out', rfl⟩
  · exact .inr ⟨fun h => hrest (hcomplete.mp h), rfl⟩

end

/-! ## The buffer -/

/-- The call stays inside the buffer, stores a prefix of the output with a terminator and returns
the length of the output. -/
structure Stores (buffer buffer' : Nat → Char) (size : Nat) (out : List Char) (length : Int) :
    Prop where
  inside : ∀ k, size ≤ k → buffer' k = buffer k
  text : ∀ k (hk : k < min (size - 1) out.length),
    buffer' k = out.get ⟨k, Nat.lt_of_lt_of_le hk (Nat.min_le_right _ _)⟩
  terminator : buffer' (min (size - 1) out.length) = '\x00'
  returns : length = out.length

end Pintos.Lib.Stdio

import Mathlib.Algebra.Group.Nat.Defs
import Mathlib.Algebra.Ring.Int.Defs
import Mathlib.Data.BitVec
import Mathlib.Logic.Function.Basic

/-!
# Formatted output

`__vprintf` and the functions it is made of, with the characters in the order in which they are
passed to `output`, and `vsnprintf`, which stores them. The format is a list of characters that ends
with its terminator; what is read beyond it, a `va_arg` that finds no argument of its type and a
loop that runs out of rounds are faults.
Source `lib/stdio.c:8–52, 91–572`, `lib/stdint.h:44–49`, `lib/string.c:306–314`.
-/

namespace Pintos.Lib.Stdio

/-- What ends a run early. -/
inductive Fault
  | beyond
  | mismatch
  | rounds
  deriving DecidableEq

/-- An argument in the `va_list`: one of 32 or 64 bits, or a string or null pointer. -/
inductive Arg
  | word (w : BitVec 32)
  | dword (w : BitVec 64)
  | string (s : Option (List Char))

/-- `va_arg`, with the way the argument is read. -/
def vaArg {α : Type} (read : Arg → Option α) : List Arg → Except Fault (α × List Arg)
  | [] => .error .mismatch
  | arg :: args =>
    match read arg with
    | some value => .ok (value, args)
    | none => .error .mismatch

/-- `va_arg (args, int)`, or a pointer as a number. -/
def Arg.word? : Arg → Option (BitVec 32)
  | .word w => some w
  | _ => none

/-- `va_arg (args, char *)`. -/
def Arg.string? : Arg → Option (Option (List Char))
  | .string s => some s
  | _ => none

/-- The flags of a conversion, `lib/stdio.c:97–106`. -/
structure Flags where
  minus : Bool
  plus : Bool
  space : Bool
  pound : Bool
  zero : Bool
  group : Bool
  deriving DecidableEq

/-- The types of integer arguments, `lib/stdio.c:116–127`. -/
inductive ArgType
  | char
  | short
  | int
  | intmax
  | long
  | longlong
  | ptrdifft
  | sizet
  deriving DecidableEq

/-- `struct printf_conversion`; a precision of -1 is none. -/
structure Conversion where
  flags : Flags
  width : Int
  precision : Int
  type : ArgType

/-- `struct integer_base`. -/
structure IntegerBase where
  base : Nat
  digits : List Char
  x : Option Char
  group : Nat

/-- `base_d`, `base_o`, `base_x` and `base_X`, `lib/stdio.c:138–141`. -/
def baseD : IntegerBase := ⟨10, "0123456789".toList, none, 3⟩
def baseO : IntegerBase := ⟨8, "01234567".toList, none, 3⟩
def baseX : IntegerBase := ⟨16, "0123456789abcdef".toList, some 'x', 4⟩
def baseUpperX : IntegerBase := ⟨16, "0123456789ABCDEF".toList, some 'X', 4⟩

/-! ## Conversions -/

/-- The sign character, `lib/stdio.c:485–494`. -/
def signChar (isSigned negative : Bool) (c : Conversion) : Option Char :=
  if isSigned then
    if c.flags.plus then some (if negative then '-' else '+')
    else if c.flags.space then some (if negative then '-' else ' ')
    else if negative then some '-'
    else none
  else none

/-- The `x` of `0x`, `lib/stdio.c:499`. -/
def xChar (value : Nat) (b : IntegerBase) (c : Conversion) : Option Char :=
  if c.flags.pound && value ≠ 0 then b.x else none

/-- The loop that accumulates the digits, `lib/stdio.c:506–513`. -/
def digitLoop (b : IntegerBase) (group : Bool) : Nat → Nat → Nat → List Char
  | 0, _, _ => []
  | fuel + 1, value, digitCnt =>
    if value > 0 then
      (if group && digitCnt > 0 && digitCnt % b.group = 0 then [','] else []) ++
        b.digits.getD (value % b.base) '0' ::
          digitLoop b group fuel (value / b.base) (digitCnt + 1)
    else []

/-- What is stored in `buf`, `lib/stdio.c:504–524`. -/
def stored (value : Nat) (b : IntegerBase) (c : Conversion) : List Char :=
  let buf := digitLoop b c.flags.group 64 value 0
  let precision := if c.precision < 0 then 1 else c.precision
  let buf := buf ++ List.replicate (min precision.toNat 63 - buf.length) '0'
  if c.flags.pound && b.base = 8 && buf.getLast? ≠ some '0' then buf ++ ['0'] else buf

/-- `format_integer`, `lib/stdio.c:469–547`. -/
def formatInteger (value : Nat) (isSigned negative : Bool) (b : IntegerBase) (c : Conversion) :
    List Char :=
  let sign := signChar isSigned negative c
  let x := xChar value b c
  let buf := stored value b c
  let padCnt := (Int.bmod (c.width - buf.length - (if x.isSome then 2 else 0) -
    (if sign.isSome then 1 else 0)) (2 ^ 32)).toNat
  (if !c.flags.minus && !c.flags.zero then List.replicate padCnt ' ' else []) ++ sign.toList ++
    (x.elim [] fun x => ['0', x]) ++ (if c.flags.zero then List.replicate padCnt '0' else []) ++
    buf.reverse ++ (if c.flags.minus then List.replicate padCnt ' ' else [])

/-- `format_string`, `lib/stdio.c:560–572`. -/
def formatString (string : List Char) (length : Int) (c : Conversion) : List Char :=
  let pad := List.replicate ((c.width - length) % 2 ^ 32).toNat ' '
  (if c.width > length ∧ !c.flags.minus then pad else []) ++ string.take length.toNat ++
    (if c.width > length ∧ c.flags.minus then pad else [])

/-- The argument of a signed conversion, `lib/stdio.c:191–221`. -/
def signedValue : ArgType → Arg → Option Int
  | .char, .word w => some (w.setWidth 8).toInt
  | .short, .word w => some (w.setWidth 16).toInt
  | .int, .word w => some w.toInt
  | .intmax, .dword w => some w.toInt
  | .long, .word w => some w.toInt
  | .longlong, .dword w => some w.toInt
  | .ptrdifft, .word w => some w.toInt
  | .sizet, .word w =>
    some (if (w.toNat : Int) > (2 ^ 32 - 1) / 2 then w.toNat - (2 ^ 32 - 1) - 1 else w.toNat)
  | _, _ => none

/-- The argument of an unsigned conversion, `lib/stdio.c:237–268`. -/
def unsignedValue : ArgType → Arg → Option Nat
  | .char, .word w => some (w.setWidth 8).toNat
  | .short, .word w => some (w.setWidth 16).toNat
  | .int, .word w => some w.toNat
  | .intmax, .dword w => some w.toNat
  | .long, .word w => some w.toNat
  | .longlong, .dword w => some w.toNat
  | .ptrdifft, .word w => some (w.signExtend 64 &&& (0x7fffffff#64 <<< 1 ||| 1#64)).toNat
  | .sizet, .word w => some w.toNat
  | _, _ => none

/-- Print the next argument. -/
def printArg {α : Type} (read : Arg → Option α) (print : α → List Char) (args : List Arg) :
    Except Fault (List Char × List Arg) := do
  let (value, args) ← vaArg read args
  return (print value, args)

/-- A signed conversion, `lib/stdio.c:223–224`: -value wraps for the least value. -/
def printSigned (c : Conversion) (value : Int) : List Char :=
  let abs := ((if value < 0 then -value else value) % 2 ^ 64).toNat
  formatInteger abs true (value < 0) baseD c

/-- A string conversion, `lib/stdio.c:295–301`: `strnlen` gets the precision as a `size_t`. -/
def printString (c : Conversion) (s : Option (List Char)) : List Char :=
  let s := s.getD "(null)".toList
  formatString s (Int.bmod (min s.length (c.precision % 2 ^ 32).toNat) (2 ^ 32)) c

/-- The switch over the conversions, `lib/stdio.c:183–331`, with the way a message about one that is
not supported is printed. -/
def convert (message : String → Char → Except Fault (List Char)) (c : Conversion) (conv : Char)
    (args : List Arg) : Except Fault (List Char × List Arg) :=
  match conv with
  | 'd' | 'i' => printArg (signedValue c.type) (printSigned c) args
  | 'o' => printArg (unsignedValue c.type) (formatInteger · false false baseO c) args
  | 'u' => printArg (unsignedValue c.type) (formatInteger · false false baseD c) args
  | 'x' => printArg (unsignedValue c.type) (formatInteger · false false baseX c) args
  | 'X' => printArg (unsignedValue c.type) (formatInteger · false false baseUpperX c) args
  | 'c' => printArg Arg.word? (fun ch => formatString [Char.ofNat (ch.toNat % 256)] 1 c) args
  | 's' => printArg Arg.string? (printString c) args
  | 'p' =>
    let c := { c with flags := ⟨false, false, false, true, false, false⟩ }
    printArg Arg.word? (fun p => formatInteger p.toNat false false baseX c) args
  | 'f' | 'e' | 'E' | 'g' | 'G' | 'n' => (message "<<no %%%c in kernel>>" conv).map (·, args)
  | _ => (message "<<no %%%c conversion>>" conv).map (·, args)

/-! ## The parser -/

/-- A flag character, `lib/stdio.c:347–370`. -/
def Flags.set (flags : Flags) : Char → Option Flags
  | '-' => some { flags with minus := true }
  | '+' => some { flags with plus := true }
  | ' ' => some { flags with space := true }
  | '#' => some { flags with pound := true }
  | '0' => some { flags with zero := true }
  | '\x27' => some { flags with group := true }
  | _ => none

/-- Whether the character is a flag. -/
def isFlag (ch : Char) : Bool := ['-', '+', ' ', '#', '0', '\x27'].contains ch

/-- The flag characters, `lib/stdio.c:345–371`. -/
def parseFlags (flags : Flags) : List Char → Except Fault (Flags × List Char)
  | [] => .error .beyond
  | ch :: format =>
    match flags.set ch with
    | some flags => parseFlags flags format
    | none => .ok (flags, ch :: format)

/-- `isdigit`, `lib/ctype.h:7`. -/
def isDigit (ch : Char) : Bool := '0' ≤ ch && ch ≤ '9'

/-- The digits of a number, `lib/stdio.c:387–388, 409–410`. -/
def parseDigits (n : Int) : List Char → Except Fault (Int × List Char)
  | [] => .error .beyond
  | ch :: format =>
    if isDigit ch then parseDigits (Int.bmod (n * 10 + ch.toNat - '0'.toNat) (2 ^ 32)) format
    else .ok (n, ch :: format)

/-- A number that is written out or stands in the arguments, `lib/stdio.c:379–389, 401–411`. -/
def parseNumber (args : List Arg) : List Char → Except Fault (Int × List Char × List Arg)
  | [] => .error .beyond
  | ch :: format =>
    if ch = '*' then do
      let (w, args) ← vaArg Arg.word? args
      return (w.toInt, format, args)
    else do
      let (n, format) ← parseDigits 0 (ch :: format)
      return (n, format, args)

/-- The precision, `lib/stdio.c:397–414`. -/
def parsePrecision (args : List Arg) : List Char → Except Fault (Int × List Char × List Arg)
  | [] => .error .beyond
  | ch :: format =>
    if ch = '.' then do
      let (n, format, args) ← parseNumber args format
      return (if n < 0 then -1 else n, format, args)
    else .ok (-1, ch :: format, args)

/-- The second character of `hh` or `ll`. -/
def parseTwice (ch : Char) (once twice : ArgType) : List Char → Except Fault (ArgType × List Char)
  | [] => .error .beyond
  | ch' :: format => .ok (if ch' = ch then (twice, format) else (once, ch' :: format))

/-- The type, `lib/stdio.c:419–457`. -/
def parseType : List Char → Except Fault (ArgType × List Char)
  | [] => .error .beyond
  | 'h' :: format => parseTwice 'h' .short .char format
  | 'j' :: format => .ok (.intmax, format)
  | 'l' :: format => parseTwice 'l' .long .longlong format
  | 't' :: format => .ok (.ptrdifft, format)
  | 'z' :: format => .ok (.sizet, format)
  | format => .ok (.int, format)

/-- The flags that exclude each other, `lib/stdio.c:373–376`. -/
def Flags.normalise (flags : Flags) : Flags :=
  let flags := if flags.minus then { flags with zero := false } else flags
  if flags.plus then { flags with space := false } else flags

/-- A negative width, `lib/stdio.c:390–394`. -/
def applyWidth (width : Int) (flags : Flags) : Int × Flags :=
  if width < 0 then (Int.bmod (-width) (2 ^ 32), { flags with minus := true }) else (width, flags)

/-- The flag that a precision excludes, `lib/stdio.c:415–416`. -/
def Flags.applyPrecision (flags : Flags) (precision : Int) : Flags :=
  if precision ≥ 0 then { flags with zero := false } else flags

/-- `parse_conversion`, `lib/stdio.c:339–460`. -/
def parseConversion (format : List Char) (args : List Arg) :
    Except Fault (Conversion × List Char × List Arg) := do
  let (flags, format) ← parseFlags ⟨false, false, false, false, false, false⟩ format
  let (width, format, args) ← parseNumber args format
  let (width, flags) := applyWidth width flags.normalise
  let (precision, format, args) ← parsePrecision args format
  let (type, format) ← parseType format
  return (⟨flags.applyPrecision precision, width, precision, type⟩, format, args)

/-- The flags after some characters. -/
def Flags.setAll (flags : Flags) (l : List Char) : Flags :=
  l.foldl (fun flags ch => (flags.set ch).getD flags) flags

/-- The number after some digits. -/
def readDigits (n : Int) (l : List Char) : Int :=
  l.foldl (fun n ch => Int.bmod (n * 10 + ch.toNat - '0'.toNat) (2 ^ 32)) n

private theorem set_eq_none_iff (flags : Flags) (ch : Char) :
    flags.set ch = none ↔ isFlag ch = false := by
  unfold Flags.set
  split <;> simp_all [isFlag]

theorem parseFlags_eq {format : List Char} (h : format.dropWhile isFlag ≠ []) (flags : Flags) :
    parseFlags flags format =
      .ok (flags.setAll (format.takeWhile isFlag), format.dropWhile isFlag) := by
  induction format generalizing flags with
  | nil => exact absurd rfl h
  | cons ch format ih =>
    rw [parseFlags]
    cases hset : flags.set ch with
    | none =>
      have hflag := (set_eq_none_iff flags ch).mp hset
      rw [List.takeWhile_cons_of_neg (by simp [hflag]), List.dropWhile_cons_of_neg (by simp [hflag])]
      rfl
    | some flags' =>
      have hflag : isFlag ch = true := by
        by_contra hnot
        rw [Bool.not_eq_true, ← set_eq_none_iff flags, hset] at hnot
        cases hnot
      rw [List.dropWhile_cons_of_pos hflag] at h ⊢
      rw [List.takeWhile_cons_of_pos hflag, Flags.setAll, List.foldl_cons, hset]
      exact ih h flags'

theorem parseDigits_eq {format : List Char} (h : format.dropWhile isDigit ≠ []) (n : Int) :
    parseDigits n format =
      .ok (readDigits n (format.takeWhile isDigit), format.dropWhile isDigit) := by
  induction format generalizing n with
  | nil => exact absurd rfl h
  | cons ch format ih =>
    rw [parseDigits]
    by_cases hdigit : isDigit ch = true
    · rw [List.dropWhile_cons_of_pos hdigit] at h ⊢
      rw [if_pos hdigit, ih h, List.takeWhile_cons_of_pos hdigit]
      rfl
    · rw [if_neg hdigit, List.takeWhile_cons_of_neg hdigit, List.dropWhile_cons_of_neg hdigit]
      rfl

theorem parseConversion_eq {format f1 f2 f3 f4 : List Char} {args a1 a2 : List Arg} {flags : Flags}
    {width precision : Int} {type : ArgType}
    (h1 : parseFlags ⟨false, false, false, false, false, false⟩ format = .ok (flags, f1))
    (h2 : parseNumber args f1 = .ok (width, f2, a1))
    (h3 : parsePrecision a1 f2 = .ok (precision, f3, a2)) (h4 : parseType f3 = .ok (type, f4)) :
    parseConversion format args =
      .ok (⟨(applyWidth width flags.normalise).2.applyPrecision precision,
        (applyWidth width flags.normalise).1, precision, type⟩, f4, a2) := by
  simp only [parseConversion, h1, h2, h3, h4, bind, Except.bind]
  rfl

/-! ## The main loop -/

/-- A conversion and the step past its character, `lib/stdio.c:180–331`. -/
def convertNext (message : String → Char → Except Fault (List Char)) (format : List Char)
    (args : List Arg) : Except Fault (List Char × List Char × List Arg) := do
  let (c, format, args) ← parseConversion format args
  match format with
  | [] => .error .beyond
  | conv :: format =>
    let (out, args) ← convert message c conv args
    return (out, format, args)

/-- The loop of `__vprintf`, `lib/stdio.c:160–332`. -/
def vprintfLoop (message : String → Char → Except Fault (List Char)) :
    Nat → List Char → List Arg → Except Fault (List Char)
  | 0, _, _ => .error .rounds
  | _ + 1, [], _ => .error .beyond
  | fuel + 1, ch :: format, args =>
    if ch = '\x00' then .ok []
    else if ch ≠ '%' then (vprintfLoop message fuel format args).map ([ch] ++ ·)
    else if format.head? = some '%' then
      (vprintfLoop message fuel format.tail args).map (['%'] ++ ·)
    else do
      let (out, format, args) ← convertNext message format args
      (vprintfLoop message fuel format args).map (out ++ ·)

/-- `__printf` with a message and its character, whose format has no other message. -/
def message (format : String) (ch : Char) : Except Fault (List Char) :=
  vprintfLoop (fun _ _ => .ok []) 32 (format.toList ++ ['\x00']) [.word (BitVec.ofNat 32 ch.toNat)]

end Pintos.Lib.Stdio

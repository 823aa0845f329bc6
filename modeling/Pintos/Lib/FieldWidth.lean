import Pintos.Lib.FormatInteger

/-!
# The field width of integer conversions

Conversion specifications as they are written, what `parse_conversion` makes of them, and how
`format_integer` pads its output.
Source `lib/stdio.c:339–460, 526–547`.
-/

namespace Pintos.Lib.Stdio

/-- A width or precision: digits, possibly none, or `*` with its argument. -/
inductive Number
  | digits (l : List Char)
  | star (n : Int)

namespace Number

/-- How the number is written. -/
def text : Number → List Char
  | digits l => l
  | star _ => ['*']

/-- The argument that it takes. -/
def args : Number → List Arg
  | digits _ => []
  | star n => [.word (BitVec.ofInt 32 n)]

/-- The value of decimal digits. -/
def decimal (l : List Char) : Nat := Nat.ofDigits 10 (l.reverse.map digitValue)

def value : Number → Int
  | digits l => decimal l
  | star n => n

/-- The number is one, and its absolute value is below `2 ^ 31`. -/
def Valid (number : Number) : Prop :=
  number.value.natAbs < 2 ^ 31 ∧
    match number with
    | digits l => ∀ ch ∈ l, isDigit ch = true
    | star _ => True

end Number

/-- How a type is written. -/
def ArgType.text : ArgType → List Char
  | .char => ['h', 'h']
  | .short => ['h']
  | .int => []
  | .intmax => ['j']
  | .long => ['l']
  | .longlong => ['l', 'l']
  | .ptrdifft => ['t']
  | .sizet => ['z']

/-- A conversion specification without its conversion character. -/
structure Spec where
  flags : List Char
  width : Number
  precision : Option Number
  type : ArgType

namespace Spec

/-- The specification can be written: a width does not start with a zero, which would be a flag. -/
structure Valid (s : Spec) : Prop where
  flags : ∀ ch ∈ s.flags, isFlag ch = true
  width : s.width.Valid
  start : s.width.text.head? ≠ some '0'
  precision : ∀ number ∈ s.precision, number.Valid ∧ number.value ≤ 63

/-- The text of the specification. -/
def text (s : Spec) : List Char :=
  s.flags ++ (s.width.text ++ ((s.precision.elim [] fun number => '.' :: number.text) ++ s.type.text))

/-- The arguments that it takes before the number to print. -/
def args (s : Spec) : List Arg := s.width.args ++ (s.precision.elim [] Number.args)

/-- The output is to be at the left. -/
def Left (s : Spec) : Prop := '-' ∈ s.flags ∨ s.width.value < 0

/-- There is no precision, or a negative one. -/
def NoPrecision (s : Spec) : Prop := ∀ number ∈ s.precision, number.value < 0

end Spec

/-! ## Parsing a specification -/

private theorem readDigits_eq {l : List Char} (hl : ∀ ch ∈ l, isDigit ch = true)
    (h : Number.decimal l < 2 ^ 31) : readDigits 0 l = Number.decimal l := by
  induction l using List.reverseRecOn with
  | nil => rfl
  | append_singleton l ch ih =>
    have hch := hl ch (by simp)
    have hvalue : digitValue ch = ch.toNat - '0'.toNat := if_pos hch
    have hdecimal : Number.decimal (l ++ [ch]) = digitValue ch + 10 * Number.decimal l := by
      rw [Number.decimal, List.reverse_append, List.map_append, List.reverse_singleton,
        List.map_singleton, List.singleton_append, Nat.ofDigits_cons]
      rfl
    rw [hdecimal] at h ⊢
    have hrec := ih (fun ch hch => hl ch (List.mem_append_left _ hch)) (by omega)
    rw [readDigits] at hrec
    rw [readDigits, List.foldl_append, hrec, List.foldl_cons, List.foldl_nil]
    have hge : '0'.toNat ≤ ch.toNat := by
      simp only [isDigit, Bool.and_eq_true, decide_eq_true_eq] at hch
      exact UInt32.le_iff_toNat_le.mp hch.1
    rw [Int.bmod_eq_of_le (by omega) (by omega)]
    omega

/-- The text starts with a character that has none of these properties. -/
def StartsWithout (p : Char → Bool) (l : List Char) : Prop := ∃ ch rest, l = ch :: rest ∧ p ch = false

private theorem StartsWithout.dropWhile {p : Char → Bool} {l rest : List Char}
    (hrest : StartsWithout p rest)
    (hl : ∀ ch ∈ l, p ch = true) : (l ++ rest).takeWhile p = l ∧ (l ++ rest).dropWhile p = rest := by
  obtain ⟨ch, rest, rfl, hch⟩ := hrest
  rw [List.takeWhile_append_of_pos hl, List.dropWhile_append_of_pos hl,
    List.takeWhile_cons_of_neg (by simp [hch]), List.dropWhile_cons_of_neg (by simp [hch])]
  exact ⟨List.append_nil l, rfl⟩

section

variable {rest : List Char} {args : List Arg}

private theorem parseNumber_text {number : Number} (hvalid : number.Valid)
    (hrest : StartsWithout (fun ch => isDigit ch || ch = '*') rest) :
    parseNumber (number.args ++ args) (number.text ++ rest) = .ok (number.value, rest, args) := by
  obtain ⟨hlt, hdigits⟩ := hvalid
  cases number with
  | star n =>
    have hn : (BitVec.ofInt 32 n).toInt = n := by
      rw [Number.value] at hlt
      rw [BitVec.toInt_ofInt, Int.bmod_eq_of_le (by omega) (by omega)]
    change Except.ok ((BitVec.ofInt 32 n).toInt, rest, args) = _
    rw [hn]
    rfl
  | digits l =>
    have hvalue : Number.decimal l < 2 ^ 31 := hlt
    have hwithout : StartsWithout isDigit rest := by
      obtain ⟨ch, rest, rfl, hch⟩ := hrest
      exact ⟨ch, rest, rfl, (Bool.or_eq_false_iff.mp hch).1⟩
    have hspan := hwithout.dropWhile hdigits
    have hparse := @parseDigits_eq (l ++ rest) (by
      rw [hspan.2]
      obtain ⟨ch, rest, rfl, -⟩ := hrest
      exact List.cons_ne_nil _ _) 0
    rw [hspan.1, hspan.2, readDigits_eq hdigits hvalue] at hparse
    obtain ⟨ch, t, hcons, hstar⟩ : ∃ ch t, l ++ rest = ch :: t ∧ ch ≠ '*' := by
      cases l with
      | nil =>
        obtain ⟨ch, t, rfl, hch⟩ := hrest
        exact ⟨ch, t, rfl, by simpa using (Bool.or_eq_false_iff.mp hch).2⟩
      | cons ch l =>
        refine ⟨ch, l ++ rest, rfl, ?_⟩
        rintro rfl
        exact absurd (hdigits '*' List.mem_cons_self) (by decide)
    rw [hcons] at hparse
    change parseNumber args (l ++ rest) = _
    rw [hcons, parseNumber, if_neg hstar, hparse]
    rfl

/-- What follows a precision. -/
theorem type_text_starts (type : ArgType) (k : IntConv) (rest : List Char) :
    StartsWithout (fun ch => isFlag ch || isDigit ch || ch = '*' || ch = '.')
      (type.text ++ k.char :: rest) := by
  cases type <;> cases k <;> exact ⟨_, _, rfl, by decide⟩

private theorem parseType_text (type : ArgType) (k : IntConv) (rest : List Char) :
    parseType (type.text ++ k.char :: rest) = .ok (type, k.char :: rest) := by
  cases type <;> cases k <;> rfl

/-- The precision that is parsed. -/
def Spec.precisionValue (s : Spec) : Int :=
  s.precision.elim (-1) fun number => if number.value < 0 then -1 else number.value

private theorem parsePrecision_text {precision : Option Number}
    (hvalid : ∀ number ∈ precision, number.Valid)
    (hrest : StartsWithout (fun ch => isFlag ch || isDigit ch || ch = '*' || ch = '.') rest) :
    parsePrecision (precision.elim [] Number.args ++ args)
        ((precision.elim [] fun number => '.' :: number.text) ++ rest) =
      .ok (precision.elim (-1) fun number => if number.value < 0 then -1 else number.value, rest,
        args) := by
  obtain ⟨ch, t, rfl, hch⟩ := hrest
  simp only [Bool.or_eq_false_iff, decide_eq_false_iff_not] at hch
  cases precision with
  | none =>
    change parsePrecision args (ch :: t) = _
    rw [parsePrecision, if_neg hch.2]
    rfl
  | some number =>
    have hparse := @parseNumber_text (ch :: t) args number (hvalid number rfl)
      ⟨ch, t, rfl, by simp [hch]⟩
    change parsePrecision (number.args ++ args) ('.' :: (number.text ++ ch :: t)) = _
    rw [parsePrecision, if_pos rfl, hparse]
    rfl

private theorem setAll_eq (flags : Flags) (l : List Char) :
    flags.setAll l = ⟨flags.minus || l.contains '-', flags.plus || l.contains '+',
      flags.space || l.contains ' ', flags.pound || l.contains '#', flags.zero || l.contains '0',
      flags.group || l.contains '\x27'⟩ := by
  induction l generalizing flags with
  | nil => simp [Flags.setAll]
  | cons ch l ih =>
    rw [Flags.setAll, List.foldl_cons, ← Flags.setAll, ih]
    simp only [List.contains_cons, beq_eq_decide, @eq_comm _ _ ch]
    unfold Flags.set
    split <;> simp_all

/-- The flags that are parsed. -/
def Spec.parsedFlags (s : Spec) : Flags :=
  ⟨s.flags.contains '-' || s.width.value < 0, s.flags.contains '+', s.flags.contains ' ' && !s.flags.contains '+',
    s.flags.contains '#', s.flags.contains '0' && !s.flags.contains '-' && s.precisionValue < 0,
    s.flags.contains '\x27'⟩

private theorem applyWidth_normalise (minus plus space pound zero group : Bool) {width : Int}
    (hwidth : width.natAbs < 2 ^ 31) :
    applyWidth width (Flags.mk minus plus space pound zero group).normalise =
      ((width.natAbs : Int),
        ⟨minus || width < 0, plus, space && !plus, pound, zero && !minus, group⟩) := by
  have hflags : (Flags.mk minus plus space pound zero group).normalise =
      ⟨minus, plus, space && !plus, pound, zero && !minus, group⟩ := by
    unfold Flags.normalise
    cases minus <;> cases plus <;> simp
  rw [hflags, applyWidth]
  by_cases hneg : width < 0
  · have habs : Int.bmod (-width) (2 ^ 32) = width.natAbs := by
      rw [Int.bmod_eq_of_le (by omega) (by omega)]
      omega
    rw [if_pos hneg, habs, decide_eq_true hneg, Bool.or_true]
  · have habs : width = width.natAbs := by omega
    simp only [hneg, if_false, decide_false, Bool.or_false, ← habs]

private theorem parseConversion_text (s : Spec) (hs : s.Valid) (k : IntConv) (rest : List Char)
    (args : List Arg) :
    parseConversion (s.text ++ k.char :: rest) (s.args ++ args) =
      .ok (⟨s.parsedFlags, s.width.value.natAbs, s.precisionValue, s.type⟩, k.char :: rest,
        args) := by
  have htype := type_text_starts s.type k rest
  have hprecision := @parsePrecision_text _ args s.precision (fun n hn => (hs.precision n hn).1) htype
  -- what follows the width, and what follows the flags
  have hafter : StartsWithout (fun ch => isFlag ch || isDigit ch || ch = '*')
      ((s.precision.elim [] fun number => '.' :: number.text) ++ (s.type.text ++ k.char :: rest)) := by
    cases s.precision with
    | none =>
      obtain ⟨ch, t, heq, hch⟩ := htype
      exact ⟨ch, t, heq, (Bool.or_eq_false_iff.mp hch).1⟩
    | some number => exact ⟨'.', _, rfl, by decide⟩
  have hwidth := @parseNumber_text _ (s.precision.elim [] Number.args ++ args) s.width hs.width (by
    obtain ⟨ch, t, heq, hch⟩ := hafter
    exact ⟨ch, t, heq, by simpa [and_assoc] using (by simpa [and_assoc] using hch : _ ∧ _ ∧ _).2⟩)
  have hflags : StartsWithout isFlag (s.width.text ++
      ((s.precision.elim [] fun number => '.' :: number.text) ++
        (s.type.text ++ k.char :: rest))) := by
    have hdigits := hs.width.2
    have hstart := hs.start
    cases hwidth : s.width with
    | star n => exact ⟨'*', _, rfl, by decide⟩
    | digits l =>
      rw [hwidth] at hdigits hstart
      cases l with
      | nil =>
        obtain ⟨ch, t, heq, hch⟩ := hafter
        simp only [Bool.or_eq_false_iff] at hch
        exact ⟨ch, t, heq, hch.1.1⟩
      | cons ch l =>
        have hdigit := hdigits ch List.mem_cons_self
        refine ⟨ch, _, rfl, ?_⟩
        by_contra hflag
        simp only [Bool.not_eq_false, isFlag, List.contains_iff_mem, List.mem_cons,
          List.not_mem_nil, or_false] at hflag
        rcases hflag with rfl | rfl | rfl | rfl | rfl | rfl
        all_goals first
          | exact hstart rfl
          | exact absurd hdigit (by decide)
  have hspan := hflags.dropWhile hs.flags
  have hparse := @parseFlags_eq (s.flags ++ (s.width.text ++
      ((s.precision.elim [] fun number => '.' :: number.text) ++
        (s.type.text ++ k.char :: rest)))) (by
    rw [hspan.2]
    obtain ⟨ch, t, heq, -⟩ := hflags
    rw [heq]
    exact List.cons_ne_nil _ _) ⟨false, false, false, false, false, false⟩
  rw [hspan.1, hspan.2, setAll_eq] at hparse
  have htext : s.text ++ k.char :: rest = s.flags ++ (s.width.text ++
      ((s.precision.elim [] fun number => '.' :: number.text) ++
        (s.type.text ++ k.char :: rest))) := by
    simp only [Spec.text, List.append_assoc]
  rw [htext, Spec.args, List.append_assoc,
    parseConversion_eq hparse hwidth hprecision (parseType_text s.type k rest)]
  simp only [Bool.false_or, applyWidth_normalise _ _ _ _ _ _ hs.width.1, Flags.applyPrecision,
    Spec.parsedFlags, Spec.precisionValue]
  split
  · next h => simp [Int.not_lt.mpr h]
  · next h => simp [Int.not_le.mp h]

end

/-! ## Padding -/

/-- The sign and `0x` that a conversion prints for a value. -/
def Spec.leading (s : Spec) (k : IntConv) (value : Int) : List Char :=
  (if k.isSigned then
    if value < 0 then ['-']
    else if '+' ∈ s.flags then ['+']
    else if ' ' ∈ s.flags then [' ']
    else []
  else []) ++ if '#' ∈ s.flags ∧ value ≠ 0 then k.base.x.elim [] fun x => ['0', x] else []

/-- The output of a conversion, padded to its width: with blanks behind it if it is
left-justified, and otherwise with blanks before it or with zeros between sign and `0x` and the
digits. -/
structure Padded (s : Spec) (k : IntConv) (value : Int) (narrow out : List Char) : Prop where
  length : out.length = max s.width.value.natAbs narrow.length
  left : s.Left → ∃ n, out = narrow ++ List.replicate n ' '
  right : ¬ s.Left → ∃ n, out = List.replicate n ' ' ++ narrow ∨
    ∃ digits, narrow = s.leading k value ++ digits ∧
      out = s.leading k value ++ List.replicate n '0' ++ digits

/-- The number of characters that a conversion without precision and width prints. -/
def Spec.naturalLength (s : Spec) (k : IntConv) (value : Int) : Nat :=
  (s.leading k value).length +
    if value = 0 then 1
    else (k.base.body (s.flags.contains '\x27') value.natAbs).length +
      if '#' ∈ s.flags ∧ k = .o then 1 else 0

/-- A negative width argument meets a `0` flag that nothing has removed, and asks for more than the
conversion prints. -/
def Spec.PadsTwice (s : Spec) (k : IntConv) (value : Int) : Prop :=
  s.width.value < 0 ∧ '0' ∈ s.flags ∧ '-' ∉ s.flags ∧ s.NoPrecision ∧
    s.naturalLength k value < s.width.value.natAbs

/-- The sign and `0x`. -/
def lead (v : Nat) (isSigned negative : Bool) (b : IntegerBase) (c : Conversion) : List Char :=
  (signChar isSigned negative c).toList ++ ((xChar v b c).elim [] fun x => ['0', x])

private theorem length_lead (v : Nat) (isSigned negative : Bool) (b : IntegerBase)
    (c : Conversion) :
    (lead v isSigned negative b c).length = (if (xChar v b c).isSome then 2 else 0) +
      if (signChar isSigned negative c).isSome then 1 else 0 := by
  unfold lead
  cases signChar isSigned negative c <;> cases xChar v b c <;> rfl

/-- The output for a width that is not too large for an `int`. -/
theorem formatInteger_width {v : Nat} {isSigned negative : Bool} {b : IntegerBase}
    {c : Conversion} {width : Nat} (hwidth : c.width = width) (hlt : width < 2 ^ 31)
    (hstored : (stored v b c).length ≤ 64) {n : Nat}
    (hn : n = width - ((lead v isSigned negative b c).length + (stored v b c).length)) :
    formatInteger v isSigned negative b c =
      (if !c.flags.minus && !c.flags.zero then List.replicate n ' ' else []) ++
        (lead v isSigned negative b c ++ (if c.flags.zero then List.replicate n '0' else []) ++
          (stored v b c).reverse) ++ if c.flags.minus then List.replicate n ' ' else [] := by
  have hlead := length_lead v isSigned negative b c
  have hpad : (Int.bmod (c.width - (stored v b c).length -
      (if (xChar v b c).isSome then 2 else 0) -
      (if (signChar isSigned negative c).isSome then 1 else 0)) (2 ^ 32)).toNat = n := by
    rw [hn, hlead, hwidth]
    split_ifs <;> (rw [Int.bmod_eq_of_le (by omega) (by omega)]; omega)
  rw [formatInteger]
  simp only [hpad, lead, List.append_assoc]

/-- The conversion that a specification is parsed to. -/
def Spec.conversion (s : Spec) : Conversion :=
  ⟨s.parsedFlags, s.width.value.natAbs, s.precisionValue, s.type⟩

section

variable {s : Spec} {k : IntConv} {value : Int}

private theorem Spec.noPrecision_iff (s : Spec) : s.NoPrecision ↔ s.precisionValue < 0 := by
  unfold Spec.NoPrecision Spec.precisionValue
  cases s.precision with
  | none => simp
  | some number =>
    simp only [Option.mem_def, Option.some.injEq, forall_eq', Option.elim_some]
    split <;> omega

private theorem lead_eq (s : Spec) (k : IntConv) (value : Int) :
    lead value.natAbs k.isSigned (value < 0) k.base s.conversion = s.leading k value := by
  have hsign : (signChar k.isSigned (value < 0) s.conversion).toList =
      if k.isSigned then
        if value < 0 then ['-']
        else if '+' ∈ s.flags then ['+']
        else if ' ' ∈ s.flags then [' ']
        else []
      else [] := by
    simp only [signChar, Spec.conversion, Spec.parsedFlags, List.contains_eq_mem, Bool.and_eq_true,
      decide_eq_true_eq, Bool.not_eq_true']
    split_ifs <;> simp_all
  have hx : xChar value.natAbs k.base s.conversion =
      if '#' ∈ s.flags ∧ value ≠ 0 then k.base.x else none := by
    simp [xChar, Spec.conversion, Spec.parsedFlags]
  rw [lead, Spec.leading, hsign, hx]
  split_ifs <;> rfl

/-- The output without a width. -/
theorem length_narrow (hlt : value.natAbs < 2 ^ 64) (hnone : s.NoPrecision) :
    (s.leading k value).length + (stored value.natAbs k.base s.conversion).length =
      s.naturalLength k value := by
  have hprec : s.conversion.precision < 0 := s.noPrecision_iff.mp hnone
  have hoctal : k.base.base = 8 ↔ k = .o := by cases k <;> decide
  have hzero : value.natAbs = 0 ↔ value = 0 := Int.natAbs_eq_zero
  have hextra : (s.conversion.flags.pound && decide (k.base.base = 8)) = true ↔
      '#' ∈ s.flags ∧ k = .o := by
    simp [Spec.conversion, Spec.parsedFlags, hoctal]
  rw [stored_of_noPrecision hprec hlt, Spec.naturalLength]
  simp only [hzero, hextra]
  have hlast : (if value = 0 then ['0'] else k.base.body s.conversion.flags.group value.natAbs ++
      if '#' ∈ s.flags ∧ k = .o then ['0'] else []).length =
      if value = 0 then 1
      else (k.base.body (s.flags.contains '\x27') value.natAbs).length +
        if '#' ∈ s.flags ∧ k = .o then 1 else 0 := by
    split
    · rfl
    · rw [List.length_append]
      split <;> rfl
  rw [hlast]

private theorem padded_iff (hs : s.Valid) (hlt : value.natAbs < 2 ^ 64) {narrow out : List Char}
    (hnarrow : narrow = formatInteger value.natAbs k.isSigned (value < 0) k.base
      { s.conversion with width := 0 })
    (hout : out = formatInteger value.natAbs k.isSigned (value < 0) k.base s.conversion) :
    Padded s k value narrow out ↔ ¬ s.PadsTwice k value := by
  obtain ⟨-, -, -, hstored⟩ := @stored_spec k s.conversion value.natAbs hlt
  obtain ⟨l, hl⟩ : ∃ l, l = s.leading k value := ⟨_, rfl⟩
  have hlead : lead value.natAbs k.isSigned (value < 0) k.base s.conversion = l := by
    rw [hl, lead_eq]
  set buf := stored value.natAbs k.base s.conversion with hbuf
  have hnarrow' : narrow = l ++ buf.reverse := by
    have hwidth := @formatInteger_width value.natAbs k.isSigned (value < 0) k.base
      { s.conversion with width := 0 } 0 rfl (by decide) hstored 0 (Nat.zero_sub _).symm
    rw [hnarrow, hwidth]
    simp only [List.replicate_zero, ite_self, List.append_nil, List.nil_append]
    exact congrArg (· ++ buf.reverse) hlead
  have hwidth := fun n => @formatInteger_width value.natAbs k.isSigned (value < 0) k.base
    s.conversion s.width.value.natAbs rfl hs.width.1 hstored n
  have hlength : narrow.length = l.length + buf.length := by
    rw [hnarrow', List.length_append, List.length_reverse]
  obtain ⟨n, hn⟩ : ∃ n, n = s.width.value.natAbs - (l.length + buf.length) := ⟨_, rfl⟩
  rw [hwidth n (hlead ▸ hn), hlead, ← hbuf] at hout
  have hminus : s.conversion.flags.minus = true ↔ s.Left := by
    simp [Spec.conversion, Spec.parsedFlags, Spec.Left]
  have hflag : s.conversion.flags.zero = true ↔ '0' ∈ s.flags ∧ '-' ∉ s.flags ∧ s.NoPrecision := by
    simp [Spec.conversion, Spec.parsedFlags, s.noPrecision_iff, and_assoc]
  have hnatural : s.NoPrecision → l.length + buf.length = s.naturalLength k value :=
    hl ▸ length_narrow hlt
  constructor
  · rintro hpadded ⟨hneg, hzero, hdash, hnone, hshort⟩
    -- blanks and zeros make up for the width twice
    have hlen := hpadded.length
    rw [hout, hminus.mpr (.inr hneg), hflag.mpr ⟨hzero, hdash, hnone⟩, hlength] at hlen
    simp only [Bool.not_true, Bool.and_self, Bool.false_eq_true, if_false, if_true,
      List.length_append, List.length_replicate, List.length_nil, List.length_reverse] at hlen
    rw [← hnatural hnone] at hshort
    omega
  · intro hnot
    rcases Bool.eq_false_or_eq_true s.conversion.flags.minus with hM | hM
    · have hleft := hminus.mp hM
      have hright : out = narrow ++ List.replicate n ' ' := by
        rw [hout, hnarrow', hM]
        rcases Bool.eq_false_or_eq_true s.conversion.flags.zero with hZ | hZ
        · obtain ⟨hzero, hdash, hnone⟩ := hflag.mp hZ
          have hneg := hleft.resolve_left hdash
          have hlong : ¬ s.naturalLength k value < s.width.value.natAbs := fun hshort =>
            hnot ⟨hneg, hzero, hdash, hnone, hshort⟩
          rw [← hnatural hnone] at hlong
          obtain rfl : n = 0 := by omega
          simp
        · simp [hZ]
      refine ⟨?_, fun _ => ⟨n, hright⟩, fun h => absurd hleft h⟩
      rw [hright, List.length_append, List.length_replicate, hlength]
      omega
    · have hleft : ¬ s.Left := fun h => by rw [hminus.mpr h] at hM; cases hM
      rw [hM] at hout
      rcases Bool.eq_false_or_eq_true s.conversion.flags.zero with hZ | hZ
      · rw [hZ] at hout
        simp only [Bool.not_false, Bool.not_true, Bool.and_false, Bool.false_eq_true, if_false,
          if_true, List.nil_append, List.append_nil] at hout
        rw [hl] at hnarrow'
        refine ⟨?_, fun h => absurd h hleft, fun _ => ⟨n, .inr ⟨buf.reverse, hnarrow', hl ▸ hout⟩⟩⟩
        rw [hout, hlength]
        simp only [List.length_append, List.length_replicate, List.length_reverse]
        omega
      · rw [hZ] at hout
        simp only [Bool.not_false, Bool.and_self, Bool.false_eq_true, if_false, if_true,
          List.append_nil, ← hnarrow'] at hout
        refine ⟨?_, fun h => absurd h hleft, fun _ => ⟨n, .inl hout⟩⟩
        rw [hout, List.length_append, List.length_replicate, hlength]
        omega

/-- The width is kept to on one side unless a negative width argument meets a `0` flag. -/
theorem field_width_iff (s : Spec) (k : IntConv) (value : Int) (rest : List Char) (args : List Arg)
    (hs : s.Valid) (hvalue : s.type.Holds k.isSigned value) :
    (∃ c narrow out, parseConversion (s.text ++ k.char :: rest)
        (s.args ++ s.type.pass value :: args) =
          .ok (c, k.char :: rest, s.type.pass value :: args) ∧
      convert message { c with width := 0 } k.char (s.type.pass value :: args) =
        .ok (narrow, args) ∧
      convert message c k.char (s.type.pass value :: args) = .ok (out, args) ∧
      Padded s k value narrow out) ↔ ¬ s.PadsTwice k value := by
  have hlt : value.natAbs < 2 ^ 64 := by
    have := natAbs_lt hvalue
    omega
  have hout := @convert_pass value k s.conversion message hvalue args
  have hnarrow := @convert_pass value k { s.conversion with width := 0 } message hvalue args
  have hparse := parseConversion_text s hs k rest (s.type.pass value :: args)
  constructor
  · rintro ⟨c, narrow, out, hc, hn, ho, hpadded⟩
    rw [hparse, Except.ok.injEq, Prod.mk.injEq] at hc
    obtain rfl := hc.1
    have hn' := hn.symm.trans hnarrow
    have ho' := ho.symm.trans hout
    rw [Except.ok.injEq, Prod.mk.injEq] at hn' ho'
    exact (padded_iff hs hlt hn'.1 ho'.1).mp hpadded
  · intro hnot
    exact ⟨_, _, _, hparse, hnarrow, hout, (padded_iff hs hlt rfl rfl).mpr hnot⟩

end

/-- `%0*d` with a width. -/
def zeroStar (n : Int) : Spec := ⟨['0'], .star n, none, .int⟩

private theorem zeroStar_valid (n : Int) (hn : n.natAbs < 2 ^ 31) : (zeroStar n).Valid where
  flags := List.forall_mem_singleton.mpr (show isFlag '0' = true by decide)
  width := ⟨hn, trivial⟩
  start := show ['*'].head? ≠ some '0' by decide
  precision := fun _ h => by cases h

theorem field_width_iff_five :
    ∃ c narrow out, parseConversion ['0', '*', 'd'] [.word 5#32, .word 42#32] =
        .ok (c, ['d'], [.word 42#32]) ∧
      convert message { c with width := 0 } 'd' [.word 42#32] = .ok (narrow, []) ∧
      convert message c 'd' [.word 42#32] = .ok (out, []) ∧ Padded (zeroStar 5) .d 42 narrow out :=
  (field_width_iff (zeroStar 5) .d 42 [] [] (zeroStar_valid 5 (by decide))
    (by unfold ArgType.Holds; decide)).mpr fun h => absurd h.1 (by decide)

/-- `%0*d` prints 42 with eight characters if its width is -5. -/
theorem field_width_twice :
    parseConversion ['0', '*', 'd'] [.word (-5#32), .word 42#32] =
        .ok ((zeroStar (-5)).conversion, ['d'], [.word 42#32]) ∧
      convert message { (zeroStar (-5)).conversion with width := 0 } 'd' [.word 42#32] =
        .ok ("42".toList, []) ∧
      convert message (zeroStar (-5)).conversion 'd' [.word 42#32] =
        .ok ("00042   ".toList, []) ∧
      ¬ Padded (zeroStar (-5)) .d 42 "42".toList "00042   ".toList :=
  ⟨rfl, rfl, rfl, fun h => absurd h.length (by decide)⟩

end Pintos.Lib.Stdio

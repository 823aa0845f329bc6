import Mathlib.Data.List.DropRight
import Mathlib.Data.Nat.Digits.Lemmas
import Pintos.Lib.Stdio

/-!
# The numerals of integer conversions

What `format_integer` prints, read back as a numeral.
Source `lib/stdio.c:183–281, 462–547`.
-/

namespace Pintos.Lib.Stdio

/-- The integer conversions. -/
inductive IntConv
  | d
  | i
  | o
  | u
  | x
  | upperX
  deriving DecidableEq

namespace IntConv

/-- The conversion character. -/
def char : IntConv → Char
  | d => 'd'
  | i => 'i'
  | o => 'o'
  | u => 'u'
  | x => 'x'
  | upperX => 'X'

/-- The base of the numeral. -/
def base : IntConv → IntegerBase
  | d | i | u => baseD
  | o => baseO
  | x => baseX
  | upperX => baseUpperX

def isSigned : IntConv → Bool
  | d | i => true
  | _ => false

end IntConv

/-- The size of an argument of the type. -/
def ArgType.bits : ArgType → Nat
  | .char => 8
  | .short => 16
  | .intmax | .longlong => 64
  | _ => 32

/-- The numbers that an argument of the type can be. -/
def ArgType.Holds (type : ArgType) (isSigned : Bool) (value : Int) : Prop :=
  if isSigned then -2 ^ (type.bits - 1) ≤ value ∧ value < 2 ^ (type.bits - 1)
  else 0 ≤ value ∧ value < 2 ^ type.bits

/-- The argument as it is passed: shorter ones are promoted to 32 bits. -/
def ArgType.pass : ArgType → Int → Arg
  | .intmax, value | .longlong, value => .dword (BitVec.ofInt 64 value)
  | _, value => .word (BitVec.ofInt 32 value)

section

variable {type : ArgType} {value : Int}

private theorem signedValue_pass (h : type.Holds true value) :
    signedValue type (type.pass value) = some value := by
  cases type with
  | sizet =>
    simp only [ArgType.Holds, ArgType.bits, if_true] at h
    simp only [ArgType.pass, signedValue, BitVec.toNat_ofInt, Option.some.injEq]
    split <;> omega
  | _ =>
    simp only [ArgType.Holds, ArgType.bits, if_true] at h
    simp only [ArgType.pass, signedValue, BitVec.toInt_setWidth, BitVec.toInt_ofInt,
      BitVec.toNat_ofInt, Option.some.injEq, Int.bmod_def]
    split <;> omega

/-- The mask of `%tu` undoes the sign extension. -/
theorem toNat_signExtend_and (w : BitVec 32) :
    (w.signExtend 64 &&& (0x7fffffff#64 <<< 1 ||| 1#64)).toNat = w.toNat := by
  have hmask : (0x7fffffff#64 <<< 1 ||| 1#64) = (BitVec.allOnes 32).setWidth 64 := by decide
  have heq : w.signExtend 64 &&& (0x7fffffff#64 <<< 1 ||| 1#64) = w.setWidth 64 := by
    rw [hmask]
    apply BitVec.eq_of_getLsbD_eq
    intro i hi
    simp only [BitVec.getLsbD_and, BitVec.getLsbD_signExtend, BitVec.getLsbD_setWidth,
      BitVec.getLsbD_allOnes, hi, decide_true, Bool.true_and]
    by_cases hlow : i < 32
    · simp [hlow]
    · simp [hlow, BitVec.getLsbD_of_ge w i (by omega)]
  rw [heq, BitVec.toNat_setWidth]
  have := w.isLt
  omega

private theorem unsignedValue_pass (h : type.Holds false value) :
    unsignedValue type (type.pass value) = some value.natAbs := by
  cases type with
  | _ =>
    simp only [ArgType.Holds, ArgType.bits, Bool.false_eq_true, if_false] at h
    simp only [ArgType.pass, unsignedValue, toNat_signExtend_and, BitVec.toNat_setWidth,
      BitVec.toNat_ofInt, Option.some.injEq]
    omega

theorem natAbs_lt {isSigned : Bool} (h : type.Holds isSigned value) :
    value.natAbs ≤ 2 ^ 63 ∨ isSigned = false ∧ value.natAbs < 2 ^ 64 := by
  cases isSigned with
  | true =>
    left
    cases type with
    | _ =>
      simp only [ArgType.Holds, ArgType.bits, if_true] at h
      omega
  | false =>
    right
    cases type with
    | _ =>
      simp only [ArgType.Holds, ArgType.bits, Bool.false_eq_true, if_false] at h
      exact ⟨rfl, by omega⟩

/-- An integer conversion formats its argument. -/
theorem convert_pass {k : IntConv} {c : Conversion} (message : String → Char → Except Fault _)
    (h : c.type.Holds k.isSigned value) (args : List Arg) :
    convert message c k.char (c.type.pass value :: args) =
      .ok (formatInteger value.natAbs k.isSigned (value < 0) k.base c, args) := by
  have hlt := natAbs_lt h
  cases k with
  | d | i =>
    have habs : ((if value < 0 then -value else value) % 2 ^ 64).toNat = value.natAbs := by
      simp only [IntConv.isSigned, Bool.true_eq_false, false_and, or_false] at hlt
      split <;> omega
    simp only [convert, IntConv.char, printArg, vaArg, signedValue_pass h]
    rw [← habs]
    rfl
  | _ =>
    have hneg : decide (value < 0) = false := by
      have := h.1
      simpa using this
    simp only [convert, IntConv.char, printArg, vaArg, unsignedValue_pass h, hneg]
    rfl

end

/-! ## The digits in the buffer -/

/-- Commas between groups of digits, which come from the right, after `n` others. -/
def separate (group : Nat) : Nat → List Char → List Char
  | _, [] => []
  | n, ch :: digits =>
    (if n > 0 ∧ n % group = 0 then [',', ch] else [ch]) ++ separate group (n + 1) digits

/-- The digit of a value in the base. -/
def IntegerBase.digit (b : IntegerBase) (n : Nat) : Char := b.digits.getD n '0'

/-- The digits of a number, from the right. -/
def IntegerBase.numeral (b : IntegerBase) (value : Nat) : List Char :=
  (Nat.digits b.base value).map b.digit

/-- The value of a digit. -/
def digitValue (ch : Char) : Nat :=
  if isDigit ch then ch.toNat - '0'.toNat
  else if 'a' ≤ ch then ch.toNat - 'a'.toNat + 10
  else ch.toNat - 'A'.toNat + 10

private theorem separate_append (group n : Nat) (l m : List Char) :
    separate group n (l ++ m) = separate group n l ++ separate group (n + l.length) m := by
  induction l generalizing n with
  | nil => rfl
  | cons ch l ih =>
    rw [List.cons_append, separate, ih, separate, List.append_assoc, List.length_cons,
      Nat.add_assoc, Nat.add_comm 1]

private theorem mem_separate {group n : Nat} {l : List Char} {ch : Char}
    (h : ch ∈ separate group n l) :
    ch = ',' ∨ ch ∈ l := by
  induction l generalizing n with
  | nil => cases h
  | cons a l ih =>
    rw [separate, List.mem_append] at h
    rcases h with h | h
    · split at h
      · simp only [List.mem_cons, List.not_mem_nil, or_false] at h
        exact h.imp id fun h => List.mem_cons.mpr (.inl h)
      · exact .inr (List.mem_singleton.mp h ▸ List.mem_cons_self)
    · exact (ih h).imp id (List.mem_cons_of_mem a)

private theorem filter_separate {group n : Nat} {l : List Char} (hl : ',' ∉ l) :
    (separate group n l).filter (· ≠ ',') = l := by
  induction l generalizing n with
  | nil => rfl
  | cons a l ih =>
    rw [List.mem_cons, not_or] at hl
    rw [separate, List.filter_append, ih hl.2]
    split <;> simp [Ne.symm hl.1]

private theorem length_separate {group n : Nat} (l : List Char) :
    l.length ≤ (separate group n l).length ∧ (separate group n l).length ≤ 2 * l.length := by
  induction l generalizing n with
  | nil => exact ⟨le_refl 0, le_refl 0⟩
  | cons a l ih =>
    have hrest := @ih (n + 1)
    rw [separate, List.length_append, List.length_cons]
    split <;> simp only [List.length_cons, List.length_nil] <;> omega

private theorem getLast?_separate {group n : Nat} (l : List Char) :
    (separate group n l).getLast? = l.getLast? := by
  induction l generalizing n with
  | nil => rfl
  | cons a l ih =>
    rw [separate, List.getLast?_append, ih, List.getLast?_cons]
    cases l.getLast? with
    | none => split <;> rfl
    | some b => rfl

private theorem digitLoop_eq {b : IntegerBase} (hb : 1 < b.base) (group : Bool) {fuel value : Nat}
    (h : value < b.base ^ fuel) (n : Nat) :
    digitLoop b group fuel value n =
      if group then separate b.group n (b.numeral value) else b.numeral value := by
  induction fuel generalizing value n with
  | zero =>
    obtain rfl : value = 0 := by simpa using h
    cases group <;> simp [digitLoop, IntegerBase.numeral, separate]
  | succ fuel ih =>
    rw [digitLoop]
    by_cases hv : value > 0
    · have hcons : b.numeral value = b.digit (value % b.base) :: b.numeral (value / b.base) := by
        rw [IntegerBase.numeral, Nat.digits_def' hb hv]
        rfl
      rw [if_pos hv, ih (Nat.div_lt_of_lt_mul (by rwa [← Nat.pow_succ'])), hcons]
      cases group with
      | false => rfl
      | true =>
        simp only [Bool.true_and, if_true, separate, Bool.and_eq_true, decide_eq_true_eq]
        split <;> rfl
    · obtain rfl : value = 0 := by omega
      cases group <;> simp [IntegerBase.numeral, separate]

/-- What the bases have in common: their digits are characters of their own. -/
theorem IntConv.base_spec (k : IntConv) :
    8 ≤ k.base.base ∧ (∀ n < k.base.base, digitValue (k.base.digit n) = n ∧
      k.base.digit n ∈ k.base.digits) ∧ k.base.digit 0 = '0' ∧
      ∀ ch ∈ k.base.digits, ch ∉ [',', ' ', '+', '-', 'x', 'X'] := by
  have hall : k.base.digits.all (fun ch => decide (ch ∉ [',', ' ', '+', '-', 'x', 'X'])) = true := by
    cases k <;> decide
  refine ⟨?_, ?_, ?_, fun ch hch => of_decide_eq_true (List.all_eq_true.mp hall ch hch)⟩
  all_goals cases k <;> decide

section

variable {k : IntConv} {c : Conversion} {v : Nat}

private theorem mem_numeral {ch : Char} (h : ch ∈ k.base.numeral v) : ch ∈ k.base.digits := by
  obtain ⟨hbase, hdigit, -⟩ := k.base_spec
  obtain ⟨n, hn, rfl⟩ := List.mem_map.mp h
  exact (hdigit n (Nat.digits_lt_base (by omega) hn)).2

private theorem comma_notMem_numeral : ',' ∉ k.base.numeral v := fun h =>
  k.base_spec.2.2.2 ',' (mem_numeral h) List.mem_cons_self

private theorem map_digitValue_numeral :
    (k.base.numeral v).map digitValue = Nat.digits k.base.base v := by
  obtain ⟨hbase, hdigit, -⟩ := k.base_spec
  rw [IntegerBase.numeral, List.map_map]
  apply (List.map_congr_left fun n hn => ?_).trans (List.map_id _)
  exact (hdigit n (Nat.digits_lt_base (by omega) hn)).1

private theorem length_numeral_le (hv : v < 2 ^ 64) : (k.base.numeral v).length ≤ 22 := by
  obtain ⟨hbase, -⟩ := k.base_spec
  rw [IntegerBase.numeral, List.length_map]
  rw [Nat.digits_length_le_iff (by omega)]
  calc v < 2 ^ 64 := hv
    _ ≤ 8 ^ 22 := by decide
    _ ≤ k.base.base ^ 22 := Nat.pow_le_pow_left hbase 22

private theorem length_numeral_pos (hv : v ≠ 0) : 0 < (k.base.numeral v).length := by
  rw [IntegerBase.numeral, List.length_map]
  exact List.length_pos_iff.mpr (Nat.digits_ne_nil_iff_ne_zero.mpr hv)

private theorem getLast?_numeral_ne (hv : v ≠ 0) : (k.base.numeral v).getLast? ≠ some '0' := by
  obtain ⟨hbase, hdigit, -⟩ := k.base_spec
  intro h
  rw [IntegerBase.numeral, List.getLast?_map, List.getLast?_eq_some_getLast
    (Nat.digits_ne_nil_iff_ne_zero.mpr hv), Option.map_some, Option.some.injEq] at h
  have hlt := Nat.digits_lt_base (by omega)
    (List.getLast_mem (Nat.digits_ne_nil_iff_ne_zero.mpr hv) : _ ∈ Nat.digits k.base.base v)
  have hval := (hdigit _ hlt).1
  rw [h] at hval
  exact Nat.getLast_digit_ne_zero k.base.base hv hval.symm

/-- The digits with the commas that the flag asks for. -/
def IntegerBase.body (b : IntegerBase) (group : Bool) (v : Nat) : List Char :=
  if group then separate b.group 0 (b.numeral v) else b.numeral v

private theorem length_body (group : Bool) :
    (k.base.numeral v).length ≤ (k.base.body group v).length ∧
      (k.base.body group v).length ≤ 2 * (k.base.numeral v).length := by
  cases group with
  | false => exact ⟨le_refl _, by rw [IntegerBase.body, if_neg (by decide)]; omega⟩
  | true => exact length_separate _

private theorem filter_body (group : Bool) :
    (k.base.body group v).filter (· ≠ ',') = k.base.numeral v := by
  cases group with
  | false =>
    apply List.filter_eq_self.mpr
    intro ch hch
    have hne : ch ≠ ',' := fun heq => comma_notMem_numeral (heq ▸ hch)
    simpa using hne
  | true => exact filter_separate comma_notMem_numeral

private theorem digitLoop_body (group : Bool) (hv : v < 2 ^ 64) :
    digitLoop k.base group 64 v 0 = k.base.body group v := by
  have hbase := k.base_spec.1
  apply digitLoop_eq (by omega)
  exact hv.trans_le (Nat.pow_le_pow_left (by omega) 64)

/-- The buffer holds the digits, and zeros up to the precision or for the `#` flag. -/
theorem stored_spec (hv : v < 2 ^ 64) :
    ∃ n, stored v k.base c = k.base.body c.flags.group v ++ List.replicate n '0' ∧
      min (if c.precision < 0 then 1 else c.precision).toNat 63 ≤
        (stored v k.base c).length ∧ (stored v k.base c).length ≤ 64 := by
  have hloop := @digitLoop_body k v c.flags.group hv
  have hlen := (@length_body k v c.flags.group).2
  have hnum := @length_numeral_le k v hv
  unfold stored
  simp only [hloop]
  generalize (if c.precision < 0 then 1 else c.precision).toNat = precision
  split
  · refine ⟨min precision 63 - (k.base.body c.flags.group v).length + 1, ?_, ?_, ?_⟩
    · rw [List.append_assoc, List.replicate_succ']
    · simp only [List.length_append, List.length_replicate]
      omega
    · simp only [List.length_append, List.length_replicate, List.length_cons, List.length_nil]
      omega
  · refine ⟨min precision 63 - (k.base.body c.flags.group v).length, rfl, ?_, ?_⟩
    · simp only [List.length_append, List.length_replicate]
      omega
    · simp only [List.length_append, List.length_replicate]
      omega

theorem stored_of_noPrecision (hprec : c.precision < 0) (hv : v < 2 ^ 64) :
    stored v k.base c = if v = 0 then ['0'] else k.base.body c.flags.group v ++
      if c.flags.pound && k.base.base = 8 then ['0'] else [] := by
  have hloop := @digitLoop_body k v c.flags.group hv
  unfold stored
  simp only [hloop, if_pos hprec]
  by_cases hzero : v = 0
  · subst hzero
    have hnil : k.base.body c.flags.group 0 = [] := by
      unfold IntegerBase.body IntegerBase.numeral
      cases c.flags.group <;> simp [separate]
    simp [hnil]
  · have hlen := (@length_body k v c.flags.group).1
    have hpos := @length_numeral_pos k v hzero
    have hnone : min (1 : Int).toNat 63 - (k.base.body c.flags.group v).length = 0 := by
      have hone : min (1 : Int).toNat 63 = 1 := by decide
      omega
    have hlast : (k.base.body c.flags.group v).getLast? ≠ some '0' := by
      have hnum := @getLast?_numeral_ne k v hzero
      unfold IntegerBase.body
      split
      · rwa [getLast?_separate]
      · exact hnum
    rw [hnone, if_neg hzero, List.replicate_zero, List.append_nil]
    simp only [decide_eq_true hlast, Bool.and_true]
    split
    · rfl
    · rw [List.append_nil]

end

/-! ## Reading the output back -/

/-- The output without the padding blanks. -/
def stripBlanks (out : List Char) : List Char :=
  (out.dropWhile (· = ' ')).rdropWhile (· = ' ')

/-- The output without the sign. -/
def stripSign : List Char → List Char
  | '+' :: l | '-' :: l => l
  | l => l

/-- The output without `0x` or `0X`. -/
def stripX : List Char → List Char
  | '0' :: 'x' :: l | '0' :: 'X' :: l => l
  | l => l

/-- The digits with their commas. -/
def grouped (out : List Char) : List Char := stripX (stripSign (stripBlanks out))

/-- The digits. -/
def digitsOf (out : List Char) : List Char := (grouped out).filter (· ≠ ',')

private theorem dropWhile_blanks (n : Nat) (l : List Char) :
    (List.replicate n ' ' ++ l).dropWhile (· = ' ') = l.dropWhile (· = ' ') := by
  induction n with
  | zero => rfl
  | succ n ih => rw [List.replicate_succ, List.cons_append, List.dropWhile_cons_of_pos rfl, ih]

private theorem dropWhile_noBlank {l : List Char} (hl : ' ' ∉ l) (m : List Char)
    (hm : l = [] → m = []) :
    (l ++ m).dropWhile (· = ' ') = l ++ m := by
  cases l with
  | nil => rw [hm rfl]; rfl
  | cons a l =>
    have ha : a ≠ ' ' := fun heq => hl (heq ▸ List.mem_cons_self)
    exact List.dropWhile_cons_of_neg (by simpa using ha)

private theorem stripBlanks_eq {l : List Char} (hl : ' ' ∉ l) (m n : Nat) :
    stripBlanks (List.replicate m ' ' ++ l ++ List.replicate n ' ') = l := by
  have hback : (l ++ List.replicate n ' ').rdropWhile (· = ' ') = l := by
    have hrev : ' ' ∉ l.reverse := by rwa [List.mem_reverse]
    have hdrop := dropWhile_noBlank hrev [] fun _ => rfl
    rw [List.append_nil] at hdrop
    rw [List.rdropWhile, List.reverse_append, List.reverse_replicate, dropWhile_blanks, hdrop,
      List.reverse_reverse]
  unfold stripBlanks
  rw [List.append_assoc, dropWhile_blanks]
  by_cases hnil : l = []
  · subst hnil
    have hall := dropWhile_blanks n []
    rw [List.append_nil] at hall
    rw [List.nil_append, hall]
    rfl
  · rw [dropWhile_noBlank hl _ fun h => absurd h hnil, hback]

private theorem stripSign_eq {l : List Char} (hplus : '+' ∉ l) (hminus : '-' ∉ l) :
    stripSign l = l := by
  unfold stripSign
  split
  · exact absurd List.mem_cons_self hplus
  · exact absurd List.mem_cons_self hminus
  · rfl

private theorem stripX_eq {l : List Char} (hx : 'x' ∉ l) (hX : 'X' ∉ l) : stripX l = l := by
  unfold stripX
  split
  · exact absurd (List.mem_cons_of_mem _ List.mem_cons_self) hx
  · exact absurd (List.mem_cons_of_mem _ List.mem_cons_self) hX
  · rfl

/-- Sign, `0x` and padding blanks are taken off, whatever digits and commas stand between. -/
theorem grouped_eq {sign x : Option Char} {l : List Char}
    (hsign : sign ∈ [none, some ' ', some '+', some '-']) (hx : x ∈ [none, some 'x', some 'X'])
    (hl : ∀ ch ∈ l, ch ∉ [' ', '+', '-', 'x', 'X']) (m n : Nat) :
    grouped (List.replicate m ' ' ++ sign.toList ++ (x.elim [] fun x => ['0', x]) ++ l ++
      List.replicate n ' ') = l := by
  have hnot : ∀ ch ∈ [' ', '+', '-', 'x', 'X'], ch ∉ l := fun ch hch hmem => hl ch hmem hch
  have hstrip : stripX ((x.elim [] fun x => ['0', x]) ++ l) = l := by
    simp only [List.mem_cons, List.not_mem_nil, or_false] at hx
    rcases hx with rfl | rfl | rfl
    · exact stripX_eq (hnot _ (by decide)) (hnot _ (by decide))
    · rfl
    · rfl
  have hinner : ∀ ch ∈ [' ', '+', '-'], ch ∉ (x.elim [] fun x => ['0', x]) ++ l := by
    intro ch hch hmem
    rcases List.mem_append.mp hmem with hmem | hmem
    · revert hx hch hmem
      simp only [List.mem_cons, List.not_mem_nil, or_false]
      rintro (rfl | rfl | rfl) (rfl | rfl | rfl) hmem <;> revert hmem <;> decide
    · exact hnot ch (List.mem_append_left ['x', 'X'] hch) hmem
  generalize (x.elim [] fun x => ['0', x]) = xs at *
  have hblank := hinner ' ' (by decide)
  unfold grouped
  simp only [List.mem_cons, List.not_mem_nil, or_false] at hsign
  rcases hsign with rfl | rfl | rfl | rfl
  · rw [Option.toList_none, List.append_nil, List.append_assoc (List.replicate m ' '),
      stripBlanks_eq hblank, stripSign_eq (hinner _ (by decide)) (hinner _ (by decide)), hstrip]
  · rw [Option.toList_some, ← List.replicate_succ', List.append_assoc (List.replicate (m + 1) ' '),
      stripBlanks_eq hblank, stripSign_eq (hinner _ (by decide)) (hinner _ (by decide)), hstrip]
  · have hplus : ' ' ∉ '+' :: (xs ++ l) := by simpa using hblank
    rw [Option.toList_some, List.append_assoc, List.append_assoc, List.append_assoc,
      ← List.append_assoc xs, ← List.append_assoc ['+'], ← List.append_assoc]
    rw [show ['+'] ++ (xs ++ l) = '+' :: (xs ++ l) from rfl, stripBlanks_eq hplus]
    exact hstrip
  · have hminus : ' ' ∉ '-' :: (xs ++ l) := by simpa using hblank
    rw [Option.toList_some, List.append_assoc, List.append_assoc, List.append_assoc,
      ← List.append_assoc xs, ← List.append_assoc ['-'], ← List.append_assoc]
    rw [show ['-'] ++ (xs ++ l) = '-' :: (xs ++ l) from rfl, stripBlanks_eq hminus]
    exact hstrip

/-- What an integer conversion is to print for the argument, by the flags and the precision. -/
structure Right (k : IntConv) (c : Conversion) (value : Int) (out : List Char) : Prop where
  digits : ∀ ch ∈ digitsOf out, ch ∈ k.base.digits
  reads : Nat.ofDigits k.base.base ((digitsOf out).reverse.map digitValue) = value.natAbs
  minus : '-' ∈ out ↔ value < 0
  enough : c.flags.group = false → ¬ (value = 0 ∧ c.precision = 0) →
    max 1 c.precision ≤ (digitsOf out).length
  commas : c.flags.group = true → c.precision < 0 → c.flags.zero = false →
    (grouped out).reverse = separate k.base.group 0 (digitsOf out).reverse
  buffer : (stored value.natAbs k.base c).length ≤ 64

/-- The `#` flag of an octal conversion adds a zero in front of a full group. -/
def ZeroBeforeGroup (k : IntConv) (c : Conversion) (value : Int) : Prop :=
  k = .o ∧ c.flags.pound = true ∧ c.flags.group = true ∧ c.flags.zero = false ∧
    c.precision < 0 ∧ value ≠ 0 ∧ (Nat.digits 8 value.natAbs).length % 3 = 0

section

variable {k : IntConv} {c : Conversion} {value : Int}

/-- The parts of the output. -/
theorem formatInteger_eq (v : Nat) (isSigned negative : Bool) (b : IntegerBase) (c : Conversion) :
    ∃ l z r, formatInteger v isSigned negative b c =
        List.replicate l ' ' ++ (signChar isSigned negative c).toList ++
          ((xChar v b c).elim [] fun x => ['0', x]) ++
          (List.replicate z '0' ++ (stored v b c).reverse) ++ List.replicate r ' ' ∧
      (c.flags.zero = false → z = 0) := by
  unfold formatInteger
  simp only []
  generalize (Int.bmod _ _).toNat = padCnt
  refine ⟨if !c.flags.minus && !c.flags.zero then padCnt else 0, if c.flags.zero then padCnt else 0,
    if c.flags.minus then padCnt else 0, ?_, fun h => by rw [h]; rfl⟩
  cases c.flags.minus <;> cases c.flags.zero <;> simp

private theorem signChar_mem (isSigned negative : Bool) (c : Conversion) :
    signChar isSigned negative c ∈ [none, some ' ', some '+', some '-'] := by
  unfold signChar
  split_ifs <;> decide

private theorem signChar_eq_minus_iff (isSigned negative : Bool) :
    signChar isSigned negative c = some '-' ↔ isSigned = true ∧ negative = true := by
  unfold signChar
  cases isSigned <;> cases negative <;> simp; split_ifs <;> decide

private theorem xChar_mem (v : Nat) (k : IntConv) (c : Conversion) :
    xChar v k.base c ∈ [none, some 'x', some 'X'] := by
  unfold xChar
  split
  · cases k <;> decide
  · decide

private theorem mem_stored {v : Nat} (hv : v < 2 ^ 64) {ch : Char} (h : ch ∈ stored v k.base c) :
    ch = ',' ∨ ch ∈ k.base.digits := by
  obtain ⟨n, hstored, -⟩ := @stored_spec k c v hv
  obtain ⟨hbase, hdigit, hzero, -⟩ := k.base_spec
  rw [hstored, List.mem_append] at h
  rcases h with h | h
  · unfold IntegerBase.body at h
    split at h
    · exact (mem_separate h).imp id mem_numeral
    · exact .inr (mem_numeral h)
  · rw [List.eq_of_mem_replicate h, ← hzero]
    exact .inr (hdigit 0 (by omega)).2

private theorem reverse_digitsOf {v n z : Nat} {out : List Char}
    (hstored : stored v k.base c = k.base.body c.flags.group v ++ List.replicate n '0')
    (hgrouped : grouped out = List.replicate z '0' ++ (stored v k.base c).reverse) :
    (digitsOf out).reverse = k.base.numeral v ++ List.replicate (n + z) '0' := by
  have hzeros : ∀ m, (List.replicate m '0').filter (· ≠ ',') = List.replicate m '0' := fun m =>
    List.filter_replicate_of_pos (by decide)
  rw [digitsOf, hgrouped, ← List.filter_reverse, List.reverse_append, List.reverse_reverse, hstored,
    List.reverse_replicate, List.filter_append, List.filter_append, filter_body, hzeros, hzeros,
    List.append_assoc, ← List.replicate_add]

/-- All but the place of the commas is right in any case. -/
theorem right_iff {v : Nat} (hv : value.natAbs = v) (hlt : v < 2 ^ 64)
    (hneg : value < 0 → k.isSigned = true) (hprec : c.precision ≤ 63) :
    Right k c value (formatInteger v k.isSigned (value < 0) k.base c) ↔
      (c.flags.group = true → c.precision < 0 → c.flags.zero = false →
        stored v k.base c = separate k.base.group 0 ((stored v k.base c).filter (· ≠ ','))) := by
  obtain ⟨l, z, r, hout, hz⟩ := formatInteger_eq v k.isSigned (value < 0) k.base c
  obtain ⟨n, hstored, hmin, h64⟩ := @stored_spec k c v hlt
  obtain ⟨hbase, hdigit, hzero, hother⟩ := k.base_spec
  have hmem : ∀ ch ∈ List.replicate z '0' ++ (stored v k.base c).reverse,
      ch = ',' ∨ ch ∈ k.base.digits := by
    intro ch hch
    rcases List.mem_append.mp hch with hch | hch
    · rw [List.eq_of_mem_replicate hch, ← hzero]
      exact .inr (hdigit 0 (by omega)).2
    · exact mem_stored hlt (List.mem_reverse.mp hch)
  have hclean : ∀ ch ∈ List.replicate z '0' ++ (stored v k.base c).reverse,
      ch ∉ [' ', '+', '-', 'x', 'X'] := by
    intro ch hch
    rcases hmem ch hch with rfl | hch
    · decide
    · exact fun h => hother ch hch (List.mem_cons_of_mem _ h)
  have hgrouped := grouped_eq (signChar_mem k.isSigned (value < 0) c) (xChar_mem v k c) hclean l r
  rw [← hout] at hgrouped
  have hrev := reverse_digitsOf hstored hgrouped
  have hlength : (digitsOf (formatInteger v k.isSigned (value < 0) k.base c)).length =
      (k.base.numeral v).length + (n + z) := by
    rw [← List.length_reverse, hrev, List.length_append, List.length_replicate]
  have hcommas : c.flags.zero = false →
      (grouped (formatInteger v k.isSigned (value < 0) k.base c)).reverse = stored v k.base c ∧
        (digitsOf (formatInteger v k.isSigned (value < 0) k.base c)).reverse =
          (stored v k.base c).filter (· ≠ ',') := by
    intro hflag
    rw [digitsOf, ← List.filter_reverse, hgrouped, hz hflag, List.replicate_zero, List.nil_append,
      List.reverse_reverse]
    exact ⟨rfl, rfl⟩
  constructor
  · intro hright hgroup hnone hflag
    have heq := hright.commas hgroup hnone hflag
    rwa [(hcommas hflag).1, (hcommas hflag).2] at heq
  · intro heq
    refine ⟨?_, ?_, ?_, ?_, ?_, ?_⟩
    · intro ch hch
      rw [← List.mem_reverse, hrev, List.mem_append] at hch
      rcases hch with hch | hch
      · exact mem_numeral hch
      · rw [List.eq_of_mem_replicate hch, ← hzero]
        exact (hdigit 0 (by omega)).2
    · rw [hrev, List.map_append, map_digitValue_numeral, List.map_replicate, hv]
      exact (Nat.ofDigits_append_replicate_zero _).trans (Nat.ofDigits_digits _ v)
    · have hblank : ∀ m, '-' ∉ List.replicate m ' ' := fun m h =>
        absurd (List.eq_of_mem_replicate h) (by decide)
      have hx : '-' ∉ (xChar v k.base c).elim [] fun x => ['0', x] := by
        have hmem := xChar_mem v k c
        generalize xChar v k.base c = x at hmem ⊢
        simp only [List.mem_cons, List.not_mem_nil, or_false] at hmem
        rcases hmem with rfl | rfl | rfl <;> decide
      have hbody : '-' ∉ List.replicate z '0' ++ (stored v k.base c).reverse := fun h =>
        hclean '-' h (by decide)
      rw [hout, List.mem_append, List.mem_append, List.mem_append, List.mem_append]
      simp only [hblank, hx, hbody, or_false, false_or, Option.mem_toList,
        signChar_eq_minus_iff, decide_eq_true_eq, and_iff_right_iff_imp]
      exact hneg
    · intro hgroup hnot
      have hbody : (k.base.body c.flags.group v) = k.base.numeral v := by
        rw [hgroup]
        rfl
      rw [hstored, hbody, List.length_append, List.length_replicate] at hmin
      rw [hlength]
      by_cases hnone : c.precision < 0
      · rw [if_pos hnone] at hmin
        have hone : min (1 : Int).toNat 63 = 1 := by decide
        omega
      · rw [if_neg hnone] at hmin
        by_cases hv0 : v = 0
        · omega
        · have := @length_numeral_pos k v hv0
          omega
    · intro hgroup hnone hflag
      rw [(hcommas hflag).1, (hcommas hflag).2]
      exact heq hgroup hnone hflag
    · rw [hv]
      exact h64

/-- Without a precision the commas are right unless a zero stands before a full group. -/
theorem commas_iff {v : Nat} (hlt : v < 2 ^ 64) (hgroup : c.flags.group = true)
    (hnone : c.precision < 0) :
    stored v k.base c = separate k.base.group 0 ((stored v k.base c).filter (· ≠ ',')) ↔
      ¬ (v ≠ 0 ∧ c.flags.pound = true ∧ k.base.base = 8 ∧
        (k.base.numeral v).length % k.base.group = 0) := by
  rw [stored_of_noPrecision hnone hlt]
  by_cases hv : v = 0
  · rw [if_pos hv]
    exact iff_of_true rfl fun h => h.1 hv
  · have hbody := @filter_body k v true
    rw [if_neg hv, hgroup, List.filter_append, hbody, IntegerBase.body, if_pos rfl]
    by_cases hoctal : c.flags.pound = true ∧ k.base.base = 8
    · have hcond : (c.flags.pound && decide (k.base.base = 8)) = true := by simpa using hoctal
      have hone : ['0'].filter (· ≠ ',') = ['0'] := rfl
      rw [if_pos hcond, hone, separate_append, List.append_cancel_left_eq, separate, Nat.zero_add]
      have hpos : (k.base.numeral v).length > 0 := length_numeral_pos hv
      simp only [hv, hpos, hoctal, ne_eq, not_false_eq_true, true_and]
      split
      · next hmod => exact iff_of_false (by simp [separate]) (fun h => h hmod)
      · next hmod => exact iff_of_true rfl hmod
    · have hcond : ¬ (c.flags.pound && decide (k.base.base = 8)) = true := by simpa using hoctal
      rw [if_neg hcond, List.append_nil, List.filter_nil, List.append_nil]
      exact iff_of_true rfl fun h => hoctal ⟨h.2.1, h.2.2.1⟩

/-- Every integer conversion prints its argument right, except that the zero of `%#o` does not get
the comma before a full group that `'` asks for. -/
theorem numeral_right_iff (k : IntConv) (c : Conversion) (value : Int) (args : List Arg)
    (hvalue : c.type.Holds k.isSigned value) (hprec : c.precision ≤ 63) :
    (∃ out, convert message c k.char (c.type.pass value :: args) = .ok (out, args) ∧
      Right k c value out) ↔ ¬ ZeroBeforeGroup k c value := by
  have hlt : value.natAbs < 2 ^ 64 := by
    have := natAbs_lt hvalue
    omega
  have hneg : value < 0 → k.isSigned = true := by
    intro hneg
    by_contra hsigned
    rw [Bool.not_eq_true] at hsigned
    rw [ArgType.Holds, hsigned, if_neg Bool.false_ne_true] at hvalue
    omega
  rw [convert_pass message hvalue args]
  simp only [Except.ok.injEq, Prod.mk.injEq, and_true, exists_eq_left']
  rw [right_iff rfl hlt hneg hprec]
  have hoctal : k.base.base = 8 ↔ k = .o := by cases k <;> decide
  constructor
  · rintro hcommas ⟨rfl, hpound, hgroup, hflag, hnone, hne, hmod⟩
    apply (commas_iff hlt hgroup hnone).mp (hcommas hgroup hnone hflag)
    refine ⟨Int.natAbs_ne_zero.mpr hne, hpound, rfl, ?_⟩
    rw [IntegerBase.numeral, List.length_map]
    exact hmod
  · intro hnot hgroup hnone hflag
    apply (commas_iff hlt hgroup hnone).mpr
    rintro ⟨hne, hpound, hbase, hmod⟩
    obtain rfl := hoctal.mp hbase
    rw [IntegerBase.numeral, List.length_map] at hmod
    exact hnot ⟨rfl, hpound, hgroup, hflag, hnone, Int.natAbs_ne_zero.mp hne, hmod⟩

end

/-- `%'#o` without width and precision. -/
def octalGrouped : Conversion := ⟨⟨false, false, false, true, false, true⟩, 0, -1, .int⟩

theorem numeral_right_iff_ten :
    ∃ out, convert message octalGrouped IntConv.o.char [.word 8#32] = .ok (out, []) ∧
      Right .o octalGrouped 8 out :=
  (numeral_right_iff .o octalGrouped 8 [] (by unfold ArgType.Holds; decide) (by decide)).mpr fun h =>
    absurd h.2.2.2.2.2.2 (by decide)

/-- `%'#o` prints 511 as `0777`. -/
theorem numeral_without_comma :
    convert message octalGrouped 'o' [.word 511#32] = .ok ("0777".toList, []) ∧
      ¬ Right .o octalGrouped 511 "0777".toList := by
  refine ⟨rfl, fun h => ?_⟩
  have hcommas := h.commas rfl (by decide) rfl
  exact absurd hcommas (by decide)

end Pintos.Lib.Stdio

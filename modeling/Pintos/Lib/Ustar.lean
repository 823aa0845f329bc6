import Mathlib.Algebra.Group.Nat.Defs
import Mathlib.Algebra.Ring.Int.Defs
import Mathlib.Data.List.Infix
import Pintos.Lib.Fields

/-!
# Archive headers

The 512-byte headers of the ustar format: `ustar_make_header` composes one, `ustar_parse_header`
reads it. Numbers are octal strings, the checksum is taken with its own field blank, and names lose
the beginnings that would lead out of the current directory.
Source `lib/ustar.c:10–227`.
-/

namespace Pintos.Lib.Ustar

/-! ## The format -/

/-- The type of an entry, `lib/ustar.h:12–17`; the end of an archive is no entry. -/
inductive EntryType
  | regular
  | directory
  deriving DecidableEq, Repr

/-- The byte that stands for the type. -/
def EntryType.typeflag : EntryType → UInt8
  | .regular => 48
  | .directory => 53

def EntryType.ofTypeflag (c : UInt8) : Option EntryType :=
  if c = 48 then some .regular else if c = 53 then some .directory else none

/-! `struct ustar_header`, `lib/ustar.c:10–32`; `linkname`, `devmajor`, `devminor` and `padding` are
neither read nor written by name. -/

namespace Header

def name : Field := ⟨0, 100⟩
def mode : Field := ⟨100, 8⟩
def uid : Field := ⟨108, 8⟩
def gid : Field := ⟨116, 8⟩
def size : Field := ⟨124, 12⟩
def mtime : Field := ⟨136, 12⟩
def chksum : Field := ⟨148, 8⟩
def typeflag : Field := ⟨156, 1⟩
def magic : Field := ⟨257, 6⟩
def version : Field := ⟨263, 2⟩
def uname : Field := ⟨265, 32⟩
def gname : Field := ⟨297, 32⟩
def namePrefix : Field := ⟨345, 155⟩

end Header

/-- The string "ustar". -/
def ustar : CString := ⟨[117, 115, 116, 97, 114], by decide⟩

/-- The string "root". -/
def root : CString := ⟨[114, 111, 111, 116], by decide⟩

/-- The string "0000000". -/
def zeros : CString := ⟨[48, 48, 48, 48, 48, 48, 48], by decide⟩

/-- `calculate_chksum`, `lib/ustar.c:35–53`. The sum of 512 bytes does not overflow. -/
def calculateChksum (h : Bytes) : Nat :=
  ((List.range 512).map fun i =>
    if Header.chksum.offset ≤ i ∧ i < Header.chksum.offset + Header.chksum.size then 32
    else (h i).toNat).sum

/-- The name begins with "/", "./" or "../", `lib/ustar.c:67–69`. -/
def antisocial (s : List UInt8) : Bool :=
  [47].isPrefixOf s || [46, 47].isPrefixOf s || [46, 46, 47].isPrefixOf s

/-- The loop of `strip_antisocial_prefixes`, `lib/ustar.c:67–70`: the name goes on after its
first slash. -/
def stripLoop : Nat → List UInt8 → List UInt8
  | 0, s => s
  | fuel + 1, s => if antisocial s then stripLoop fuel (s.dropWhile (· != 47)).tail else s

/-- `strip_antisocial_prefixes`, `lib/ustar.c:55–72`. -/
def stripAntisocialPrefixes (s : List UInt8) : List UInt8 :=
  if stripLoop s.length s = [] ∨ stripLoop s.length s = [46, 46] then [46]
  else stripLoop s.length s

/-- The octal digits of a number, highest first. -/
def octalDigits : Nat → Nat → List Nat
  | 0, _ => []
  | fuel + 1, n => if n < 8 then [n] else octalDigits fuel (n / 8) ++ [n % 8]

/-- The conversion `%0wo` of a 32-bit number, which has 11 digits at most. -/
def octalPadded (w n : Nat) : List Nat :=
  List.replicate (w - (octalDigits 11 n).length) 0 ++ octalDigits 11 n

/-- The character of a digit. -/
def digit (d : Nat) : UInt8 := UInt8.ofNat (48 + d % 8)

private theorem digit_ne_zero (d : Nat) : digit d ≠ 0 := by
  intro h
  have := congrArg UInt8.toNat h
  simp [digit] at this
  omega

/-- What `snprintf` prints for `%0wo`. -/
def octal (w n : Nat) : CString where
  bytes := (octalPadded w n).map digit
  noNul := by
    intro h
    obtain ⟨d, -, hd⟩ := List.mem_map.mp h
    exact digit_ne_zero d hd

/-! ## Composing a header -/

private theorem not_mem_of_suffix {s t : List UInt8} (h : s <:+ t) (ht : 0 ∉ t) : 0 ∉ s :=
  fun hs => ht (h.mem hs)

theorem stripLoop_suffix (fuel : Nat) (s : List UInt8) : stripLoop fuel s <:+ s := by
  induction fuel generalizing s with
  | zero => exact List.suffix_refl s
  | succ fuel ih =>
    rw [stripLoop]
    split
    · exact (ih _).trans ((List.tail_suffix _).trans (List.dropWhile_suffix _))
    · exact List.suffix_refl s

/-- The stripped name as a string. -/
def stripName (s : CString) : CString where
  bytes := stripAntisocialPrefixes s.bytes
  noNul := by
    unfold stripAntisocialPrefixes
    split
    · decide
    · exact not_mem_of_suffix (stripLoop_suffix _ _) s.noNul

/-- The writes of `ustar_make_header` before the checksum, `lib/ustar.c:102–113`. `mtime` is written
with the size of the field `size`, which is the same. -/
def headerWrites (fileName : CString) (type : EntryType) (size : Nat) : List Write :=
  [.string Header.name fileName,
    .string Header.mode (octal 7 (if type = .regular then 0o644 else 0o755)),
    .string Header.uid zeros,
    .string Header.gid zeros,
    .string Header.size (octal 11 size),
    .string Header.mtime (octal 11 1136102400),
    ⟨Header.typeflag, fun _ _ => type.typeflag⟩,
    .string Header.magic ustar,
    ⟨Header.version, fun _ _ => 48⟩,
    .string Header.gname root,
    .string Header.uname root]

/-- The header without its checksum. -/
def headerBody (fileName : CString) (type : EntryType) (size : Nat) (header : Bytes) : Bytes :=
  Write.applyAll (headerWrites fileName type size) (memcpy header 0 512 fun _ => 0)

/-- `ustar_make_header`, `lib/ustar.c:82–119`: the header in the buffer, or none for the failure
with the message "file name too long". -/
def ustarMakeHeader (fileName : CString) (type : EntryType) (size : Nat) (header : Bytes) :
    Option Bytes :=
  let fileName := stripName fileName
  if 99 < fileName.bytes.length then none
  else
    let h := headerBody fileName type size header
    some ((Write.string Header.chksum (octal 7 (calculateChksum h))).apply h)

/-! ## Parsing a header -/

/-- The loop of `parse_octal_field`, `lib/ustar.c:136–158`. -/
def parseOctalLoop (s : Bytes) : (remaining ofs value : Nat) → Option Nat
  | 0, _, _ => none
  | remaining + 1, ofs, value =>
    if 48 ≤ s ofs ∧ s ofs ≤ 55 then
      if (2 ^ 32 - 1) / 8 < value then none
      else parseOctalLoop s remaining (ofs + 1) ((s ofs).toNat - 48 + value * 8)
    else if s ofs = 32 ∨ s ofs = 0 then if 0 < ofs then some value else none
    else none

/-- `parse_octal_field`, `lib/ustar.c:129–162`. -/
def parseOctalField (s : Bytes) (size : Nat) : Option Nat := parseOctalLoop s size 0 0

/-- The string at the beginning of a block of `n` bytes. -/
def readString (b : Bytes) : Nat → Nat → List UInt8
  | 0, _ => []
  | n + 1, p => if b p = 0 then [] else b p :: readString b n (p + 1)

/-- What a header says. -/
structure Entry where
  fileName : List UInt8
  type : EntryType
  size : Nat
  deriving DecidableEq, Repr

/-- `is_all_zeros`, `lib/ustar.c:166–173`. -/
def isAllZeros (block : Bytes) (cnt : Nat) : Bool := (List.range cnt).all fun i => block i == 0

/-- `ustar_parse_header`, `lib/ustar.c:181–227`: none is the end of the archive. -/
def ustarParseHeader (h : Bytes) : Except String (Option Entry) :=
  if isAllZeros h 512 then .ok none
  else if (List.range 6).map (Header.magic.get h) ≠ ustar.bytes ++ [0] then
    .error "not a ustar archive"
  else if Header.version.get h 0 ≠ 48 ∨ Header.version.get h 1 ≠ 48 then
    .error "invalid ustar version"
  else
    match parseOctalField (Header.chksum.get h) Header.chksum.size with
    | none => .error "corrupt chksum field"
    | some chksum =>
      if chksum ≠ calculateChksum h then .error "checksum mismatch"
      else if Header.name.get h 99 ≠ 0 ∨ Header.namePrefix.get h 0 ≠ 0 then
        .error "file name too long"
      else
        let fileName := stripAntisocialPrefixes (readString (Header.name.get h) 100 0)
        match EntryType.ofTypeflag (Header.typeflag.get h 0) with
        | none => .error "unimplemented file type"
        | some .directory => .ok (some ⟨fileName, .directory, 0⟩)
        | some .regular =>
          match parseOctalField (Header.size.get h) Header.size.size with
          | none => .error "corrupt file size field"
          | some size =>
            if 2 ^ 31 - 1 < size then .error "file too large"
            else .ok (some ⟨fileName, .regular, size⟩)

/-! ## Names -/

private theorem antisocial_stripLoop {fuel : Nat} {s : List UInt8} (hfuel : s.length ≤ fuel) :
    antisocial (stripLoop fuel s) = false := by
  induction fuel generalizing s with
  | zero =>
    rw [List.eq_nil_of_length_eq_zero (Nat.le_zero.mp hfuel)]
    rfl
  | succ fuel ih =>
    rw [stripLoop]
    split
    · next hanti =>
      apply ih
      have hpos : s ≠ [] := by
        rintro rfl
        cases hanti
      have hdrop := (List.dropWhile_suffix (l := s) (· != 47)).length_le
      have hlen := List.length_pos_iff.mpr hpos
      rw [List.length_tail]
      omega
    · next hanti => exact Bool.eq_false_iff.mpr hanti

private theorem stripLoop_eq_self {fuel : Nat} {s : List UInt8} (h : antisocial s = false) :
    stripLoop fuel s = s := by
  cases fuel with
  | zero => rfl
  | succ fuel =>
    rw [stripLoop, h]
    rfl

/-- What is left of a name: a harmless one. -/
structure Harmless (s : List UInt8) : Prop where
  not_antisocial : antisocial s = false
  ne_nil : s ≠ []
  ne_dotDot : s ≠ [46, 46]

private theorem harmless_strip (s : List UInt8) : Harmless (stripAntisocialPrefixes s) := by
  unfold stripAntisocialPrefixes
  split
  · exact ⟨rfl, by decide, by decide⟩
  · next h =>
    rw [not_or] at h
    exact ⟨antisocial_stripLoop (Nat.le_refl _), h.1, h.2⟩

private theorem Harmless.strip_eq {s : List UInt8} (h : Harmless s) :
    stripAntisocialPrefixes s = s := by
  unfold stripAntisocialPrefixes
  rw [stripLoop_eq_self h.not_antisocial, if_neg (not_or.mpr ⟨h.ne_nil, h.ne_dotDot⟩)]

/-! ## Octal numbers -/

/-- The value of a sequence of digits after those that gave `v`. -/
def octalValue (v : Nat) (ds : List Nat) : Nat := ds.foldl (fun v d => v * 8 + d) v

private theorem octalValue_append (v : Nat) (ds es : List Nat) :
    octalValue v (ds ++ es) = octalValue (octalValue v ds) es := List.foldl_append

private theorem octalValue_octalDigits {fuel n : Nat} (h : n < 8 ^ fuel) :
    octalValue 0 (octalDigits fuel n) = n := by
  induction fuel generalizing n with
  | zero =>
    rw [Nat.pow_zero] at h
    exact (Nat.lt_one_iff.mp h).symm
  | succ fuel ih =>
    rw [octalDigits]
    split
    · exact Nat.zero_add n
    · rw [octalValue_append, ih (by rw [Nat.pow_succ] at h; omega)]
      change n / 8 * 8 + n % 8 = n
      omega

private theorem octalDigits_lt {fuel n d : Nat} (hd : d ∈ octalDigits fuel n) : d < 8 := by
  induction fuel generalizing n with
  | zero => cases hd
  | succ fuel ih =>
    rw [octalDigits] at hd
    split at hd
    · next hn =>
      rw [List.mem_singleton] at hd
      omega
    · rcases List.mem_append.mp hd with hd | hd
      · exact ih hd
      · rw [List.mem_singleton] at hd
        omega

private theorem length_octalDigits {fuel n w : Nat} (h : n < 8 ^ (w + 1)) :
    (octalDigits fuel n).length ≤ w + 1 := by
  induction fuel generalizing n w with
  | zero => exact Nat.zero_le _
  | succ fuel ih =>
    rw [octalDigits]
    split
    · exact Nat.le_add_left 1 w
    · next hn =>
      cases w with
      | zero => omega
      | succ w =>
        have := @ih (n / 8) w (by rw [Nat.pow_succ] at h; omega)
        rw [List.length_append, List.length_singleton]
        omega

private theorem octalValue_replicate (k : Nat) : octalValue 0 (List.replicate k 0) = 0 := by
  induction k with
  | zero => rfl
  | succ k ih => exact ih

/-- A number that fits its width is printed with all digits. -/
structure Printed (ds : List Nat) (w n : Nat) : Prop where
  length : ds.length = w
  lt : ∀ d ∈ ds, d < 8
  value : octalValue 0 ds = n

private theorem printed_octalPadded {w n : Nat} (hw : 0 < w) (h : n < 8 ^ w) (h' : n < 8 ^ 11) :
    Printed (octalPadded w n) w n := by
  obtain ⟨w, rfl⟩ := Nat.exists_eq_add_one.mpr hw
  have hlength := @length_octalDigits 11 n w h
  unfold octalPadded
  constructor
  · rw [List.length_append, List.length_replicate]
    omega
  · intro d hd
    rcases List.mem_append.mp hd with hd | hd
    · rw [List.eq_of_mem_replicate hd]
      decide
    · exact octalDigits_lt hd
  · rw [octalValue_append, octalValue_replicate, octalValue_octalDigits h']

private theorem le_octalValue (v : Nat) (ds : List Nat) : v ≤ octalValue v ds := by
  induction ds generalizing v with
  | nil => exact Nat.le_refl v
  | cons d ds ih => exact Nat.le_trans (by omega) (ih (v * 8 + d))

private theorem toNat_digit {d : Nat} (hd : d < 8) : (digit d).toNat = 48 + d := by
  unfold digit
  rw [UInt8.toNat_ofNat', Nat.mod_eq_of_lt hd]
  omega

/-- Digits in front of a null byte are read as the number they stand for. -/
theorem parseOctalLoop_eq {s : Bytes} {remaining ofs value : Nat} {ds : List Nat}
    (hs : StrAt s ofs (ds.map digit)) (hds : ∀ d ∈ ds, d < 8) (hlen : ds.length < remaining)
    (hne : ds ≠ [] ∨ 0 < ofs) (hvalue : octalValue value ds < 2 ^ 32) :
    parseOctalLoop s remaining ofs value = some (octalValue value ds) := by
  induction ds generalizing remaining ofs value with
  | nil =>
    obtain ⟨remaining, rfl⟩ := Nat.exists_eq_add_one.mpr hlen
    have hzero : s ofs = 0 := hs
    have hofs : 0 < ofs := hne.resolve_left fun h => h rfl
    rw [parseOctalLoop, hzero, if_neg (by decide), if_pos (.inr rfl), if_pos hofs]
    rfl
  | cons d ds ih =>
    obtain ⟨remaining, rfl⟩ := Nat.exists_eq_add_one.mpr (Nat.zero_lt_of_lt hlen)
    obtain ⟨hd, -, hrest⟩ := hs
    have hlt := hds d List.mem_cons_self
    have hnat := toNat_digit hlt
    have hle := le_octalValue (value * 8 + d) ds
    have hvalue' : octalValue (value * 8 + d) ds < 2 ^ 32 := hvalue
    have hrange : 48 ≤ digit d ∧ digit d ≤ 55 := by
      rw [UInt8.le_iff_toNat_le, UInt8.le_iff_toNat_le, hnat]
      simp
      omega
    rw [parseOctalLoop, hd, if_pos hrange, if_neg (by omega), hnat, Nat.add_sub_cancel_left,
      Nat.add_comm d]
    apply ih hrest _ _ _ hvalue'
    · exact fun d' hd' => hds d' (List.mem_cons_of_mem d hd')
    · rw [List.length_cons] at hlen
      omega
    · exact .inr (Nat.succ_pos ofs)

/-- A printed number is read back from a field that has room for it. -/
theorem parseOctalField_octal {s : Bytes} {size w n : Nat} (hw : 0 < w) (hsize : w < size)
    (h : n < 8 ^ w) (h' : n < 2 ^ 32) (hs : StrAt s 0 (octal w n).bytes) :
    parseOctalField s size = some n := by
  have hprinted := printed_octalPadded hw h (Nat.lt_trans h' (by decide))
  have hparse := @parseOctalLoop_eq s size 0 0 (octalPadded w n) hs hprinted.lt
    (by rw [hprinted.length]; exact hsize) (.inl ?_) (by rw [hprinted.value]; exact h')
  · rw [parseOctalField, hparse, hprinted.value]
  · intro hnil
    have := hprinted.length
    rw [hnil, List.length_nil] at this
    omega

/-! ## The composed header -/

private theorem readString_eq {b : Bytes} {n p : Nat} {l : List UInt8} (h : StrAt b p l)
    (hlen : l.length < n) : readString b n p = l := by
  induction l generalizing n p with
  | nil =>
    obtain ⟨n, rfl⟩ := Nat.exists_eq_add_one.mpr hlen
    exact if_pos h
  | cons c l ih =>
    obtain ⟨n, rfl⟩ := Nat.exists_eq_add_one.mpr (Nat.zero_lt_of_lt hlen)
    obtain ⟨hc, hne, hrest⟩ := h
    rw [readString, hc, if_neg hne, ih hrest (Nat.lt_of_succ_lt_succ hlen)]

private theorem sum_map_le {f : Nat → Nat} {c : Nat} (h : ∀ i, f i ≤ c) (l : List Nat) :
    (l.map f).sum ≤ l.length * c := by
  induction l with
  | nil => simp
  | cons a l ih =>
    have := h a
    rw [List.map_cons, List.sum_cons, List.length_cons, Nat.succ_mul]
    omega

private theorem calculateChksum_le (h : Bytes) : calculateChksum h ≤ 130560 := by
  have hle := @sum_map_le (fun i =>
    if Header.chksum.offset ≤ i ∧ i < Header.chksum.offset + Header.chksum.size then 32
    else (h i).toNat) 255 (fun i => by
      split
      · decide
      · exact Nat.le_of_lt_succ (h i).toNat_lt) (List.range 512)
  rw [List.length_range] at hle
  exact hle

private theorem calculateChksum_set (h v : Bytes) :
    calculateChksum (Header.chksum.set h v) = calculateChksum h := by
  unfold calculateChksum
  apply congrArg List.sum
  apply List.map_congr_left
  intro i _
  split
  · rfl
  · next hi => rw [Field.set_of_not_mem hi]

section

variable {fileName : CString} {type : EntryType} {size : Nat} {header : Bytes}

/-- All writes, the checksum's included. -/
def allWrites (fileName : CString) (type : EntryType) (size : Nat) (header : Bytes) : List Write :=
  headerWrites fileName type size ++
    [.string Header.chksum (octal 7 (calculateChksum (headerBody fileName type size header)))]

/-- The composed header. -/
def composed (fileName : CString) (type : EntryType) (size : Nat) (header : Bytes) : Bytes :=
  Write.applyAll (allWrites fileName type size header) (memcpy header 0 512 fun _ => 0)

theorem ustarMakeHeader_eq : ustarMakeHeader fileName type size header =
    if 99 < (stripName fileName).bytes.length then none
    else some (composed (stripName fileName) type size header) := by
  unfold ustarMakeHeader composed allWrites
  rw [Write.applyAll_append]
  rfl

/-- The fields that are written. -/
def writtenFields : List Field :=
  [Header.name, Header.mode, Header.uid, Header.gid, Header.size, Header.mtime, Header.typeflag,
    Header.magic, Header.version, Header.gname, Header.uname, Header.chksum]

private theorem map_field_allWrites :
    (allWrites fileName type size header).map Write.field = writtenFields := rfl

private theorem forall_field_allWrites {P : Field → Prop} (h : ∀ f ∈ writtenFields, P f) :
    ∀ w ∈ allWrites fileName type size header, P w.field := by
  intro w hw
  apply h
  rw [← @map_field_allWrites fileName type size header]
  exact List.mem_map_of_mem hw

private theorem pairwise_disjoint :
    ((allWrites fileName type size header).map Write.field).Pairwise Field.Disjoint := by
  rw [map_field_allWrites]
  decide

theorem composed_of_ge {i : Nat} (hi : 512 ≤ i) :
    composed fileName type size header i = header i := by
  have hend : ∀ f ∈ writtenFields, f.offset + f.size ≤ 512 := by decide
  unfold composed
  rw [Write.applyAll_of_ge, memcpy_of_ge (by omega)]
  exact forall_field_allWrites fun f hf => Nat.le_trans (hend f hf) hi

private theorem calculateChksum_composed :
    calculateChksum (composed fileName type size header) =
      calculateChksum (headerBody fileName type size header) := by
  unfold composed allWrites
  rw [Write.applyAll_append]
  exact calculateChksum_set _ _

private theorem strAt_composed {f : Field} {s : CString} (hlen : s.bytes.length < f.size)
    (hw : Write.string f s ∈ allWrites fileName type size header) :
    StrAt (f.get (composed fileName type size header)) 0 s.bytes :=
  Write.strAt_applyAll hw pairwise_disjoint _ hlen

private theorem magic_composed :
    (List.range 6).map (Header.magic.get (composed fileName type size header)) =
      ustar.bytes ++ [0] := by
  have hmagic := @strAt_composed fileName type size header Header.magic ustar (by decide)
    (List.mem_of_getElem? (i := 7) rfl)
  obtain ⟨h0, -, h1, -, h2, -, h3, -, h4, -, h5⟩ := hmagic
  change [_, _, _, _, _, _] = _
  rw [h0, h1, h2, h3, h4, h5]
  rfl

private theorem get_composed {w : Write} (hw : w ∈ allWrites fileName type size header) {v : UInt8}
    (hv : ∀ b j, w.value b j = v) {j : Nat} (hj : j < w.field.size) :
    w.field.get (composed fileName type size header) j = v := by
  obtain ⟨b, -, hb⟩ := Write.exists_get_applyAll hw pairwise_disjoint
    (memcpy header 0 512 fun _ => 0)
  exact (hb j hj).trans (hv b j)

private theorem name_composed_last (hlen : fileName.bytes.length ≤ 99) :
    Header.name.get (composed fileName type size header) 99 = 0 := by
  obtain ⟨b, hb, hval⟩ := Write.exists_get_applyAll
    (List.mem_of_getElem? (l := allWrites fileName type size header) (i := 0) rfl)
    pairwise_disjoint (memcpy header 0 512 fun _ => 0)
  have hlast : 99 < Header.name.size := by decide
  have hzero : b 99 = 0 := hb 99 hlast
  refine (hval 99 hlast).trans ?_
  change strlcpy b fileName 100 99 = 0
  unfold strlcpy
  split
  · next hlt =>
    rw [Function.update_of_ne (by omega), memcpy_of_ge (by omega), hzero]
  · exact Function.update_self 99 0 _

private theorem namePrefix_composed :
    Header.namePrefix.get (composed fileName type size header) 0 = 0 := by
  have hdisj : ∀ f ∈ writtenFields, Header.namePrefix.Disjoint f := by decide
  have hget := @Write.get_applyAll_of_disjoint Header.namePrefix
    (allWrites fileName type size header) (memcpy header 0 512 fun _ => 0) 0
    (forall_field_allWrites hdisj) (by decide)
  exact hget

private theorem chksum_composed :
    parseOctalField (Header.chksum.get (composed fileName type size header)) Header.chksum.size =
      some (calculateChksum (composed fileName type size header)) := by
  have hle := calculateChksum_le (headerBody fileName type size header)
  have hw : Write.string Header.chksum (octal 7 (calculateChksum
      (headerBody fileName type size header))) ∈ allWrites fileName type size header :=
    List.mem_append_right _ List.mem_cons_self
  rw [calculateChksum_composed]
  generalize calculateChksum (headerBody fileName type size header) = n at hle hw ⊢
  have hlen : (octal 7 n).bytes.length < Header.chksum.size := by
    rw [octal, List.length_map, (printed_octalPadded (by decide) (by omega) (by omega)).length]
    decide
  exact parseOctalField_octal (by decide) (by decide) (by omega) (by omega)
    (strAt_composed hlen hw)

private theorem size_composed (hsize : size ≤ 2 ^ 31 - 1) :
    parseOctalField (Header.size.get (composed fileName type size header)) Header.size.size =
      some size := by
  apply @parseOctalField_octal _ _ 11 _ (by decide) (by decide) (by omega) (by omega)
  apply strAt_composed _ (List.mem_of_getElem? (i := 4) rfl)
  rw [octal, List.length_map, (printed_octalPadded (by decide) (by omega) (by omega)).length]
  decide

private theorem typeflag_composed :
    EntryType.ofTypeflag (Header.typeflag.get (composed fileName type size header) 0) =
      some type := by
  have hflag := @get_composed fileName type size header _ (List.mem_of_getElem? (i := 6) rfl)
    type.typeflag (fun _ _ => rfl) 0 Nat.zero_lt_one
  rw [show Header.typeflag.get _ 0 = type.typeflag from hflag]
  cases type with
  | regular => rfl
  | directory => rfl

private theorem version_composed {j : Nat} (hj : j < 2) :
    Header.version.get (composed fileName type size header) j = 48 :=
  @get_composed fileName type size header _ (List.mem_of_getElem? (i := 8) rfl) 48 (fun _ _ => rfl) j
    hj

private theorem not_isAllZeros_composed :
    isAllZeros (composed fileName type size header) 512 = false := by
  have hflag := @version_composed fileName type size header 0 (by decide)
  rw [isAllZeros, List.all_eq_false]
  refine ⟨263, by simp, ?_⟩
  rw [show composed fileName type size header 263 = 48 from hflag]
  decide

/-- A composed header is parsed without error, and says what it was composed of. -/
theorem parse_composed (hlen : fileName.bytes.length ≤ 99) (hsize : size ≤ 2 ^ 31 - 1) :
    ustarParseHeader (composed fileName type size header) =
      .ok (some ⟨stripAntisocialPrefixes fileName.bytes, type,
        if type = .regular then size else 0⟩) := by
  have hname : readString (Header.name.get (composed fileName type size header)) 100 0 =
      fileName.bytes :=
    readString_eq (strAt_composed (Nat.lt_succ_of_le hlen) (List.mem_of_getElem? (i := 0) rfl))
      (Nat.lt_succ_of_le hlen)
  have hversion0 := @version_composed fileName type size header 0 (by decide)
  have hversion1 := @version_composed fileName type size header 1 (by decide)
  unfold ustarParseHeader
  rw [not_isAllZeros_composed, if_neg Bool.false_ne_true, magic_composed, if_neg (fun h => h rfl),
    hversion0, hversion1, if_neg (by decide), chksum_composed]
  simp only [ne_eq, not_true_eq_false, if_false, name_composed_last hlen, namePrefix_composed,
    or_self, hname, typeflag_composed, size_composed hsize]
  cases type with
  | regular =>
    rw [if_neg (by omega)]
    rfl
  | directory => rfl

theorem parse_composed_strip (hlen : (stripName fileName).bytes.length ≤ 99)
    (hsize : size ≤ 2 ^ 31 - 1) :
    ustarParseHeader (composed (stripName fileName) type size header) =
      .ok (some ⟨stripAntisocialPrefixes fileName.bytes, type,
        if type = .regular then size else 0⟩) := by
  rw [parse_composed hlen hsize]
  rw [show stripAntisocialPrefixes (stripName fileName).bytes = _ from
    (harmless_strip fileName.bytes).strip_eq]

end

/-- What `ustar_parse_header` accepts as a file or directory has a harmless name. -/
theorem harmless_of_parse {h : Bytes} {e : Entry} (hparse : ustarParseHeader h = .ok (some e)) :
    Harmless e.fileName := by
  unfold ustarParseHeader at hparse
  split at hparse
  · cases hparse
  split at hparse
  · cases hparse
  split at hparse
  · cases hparse
  split at hparse
  · cases hparse
  split at hparse
  · cases hparse
  split at hparse
  · cases hparse
  dsimp only at hparse
  split at hparse
  · cases hparse
  · cases hparse
    exact harmless_strip _
  · split at hparse
    · cases hparse
    · split at hparse
      · cases hparse
      · cases hparse
        exact harmless_strip _

/-- A header that `ustar_make_header` composes is parsed without error and gives back the type, the
size and the stripped name; composing fails for long names only; and whatever is parsed, no entry
leads out of the current directory. -/
theorem ustar_round_trip :
    (∀ (fileName : CString) (type : EntryType) (size : Nat) (header : Bytes), size ≤ 2 ^ 31 - 1 →
      (∀ h, ustarMakeHeader fileName type size header = some h →
        ustarParseHeader h = .ok (some ⟨stripAntisocialPrefixes fileName.bytes, type,
          if type = .regular then size else 0⟩)) ∧
      (ustarMakeHeader fileName type size header = none →
        99 < (stripAntisocialPrefixes fileName.bytes).length)) ∧
    ∀ (h : Bytes) (e : Entry), ustarParseHeader h = .ok (some e) →
      e.fileName ≠ [] ∧ ¬ [47] <+: e.fileName ∧ ¬ [46, 47] <+: e.fileName ∧
        ¬ [46, 46, 47] <+: e.fileName ∧ e.fileName ≠ [46, 46] := by
  constructor
  · intro fileName type size header hsize
    rw [ustarMakeHeader_eq]
    constructor
    · intro h hmake
      split at hmake
      · cases hmake
      · next hlen =>
        cases hmake
        exact parse_composed_strip (Nat.not_lt.mp hlen) hsize
    · intro hmake
      split at hmake
      · next hlen => exact hlen
      · cases hmake
  · intro h e hparse
    have hname := harmless_of_parse hparse
    have hanti := hname.not_antisocial
    rw [antisocial, Bool.or_eq_false_iff, Bool.or_eq_false_iff] at hanti
    simp only [Bool.eq_false_iff, ne_eq, List.isPrefixOf_iff_prefix] at hanti
    exact ⟨hname.ne_nil, hanti.1.1, hanti.1.2, hanti.2, hname.ne_dotDot⟩

/-- An archive entry for "../a" is one for "a". -/
theorem ustar_round_trip_dotDot :
    ∃ h, ustarMakeHeader ⟨[46, 46, 47, 97], by decide⟩ .regular 5 (fun _ => 0) = some h ∧
      ustarParseHeader h = .ok (some ⟨[97], .regular, 5⟩) := by
  have hmake : ∃ h, ustarMakeHeader ⟨[46, 46, 47, 97], by decide⟩ .regular 5 (fun _ => 0) = some h :=
    ⟨_, by rw [ustarMakeHeader_eq, if_neg (by decide)]⟩
  obtain ⟨h, hmake⟩ := hmake
  exact ⟨h, hmake, (ustar_round_trip.1 _ .regular 5 _ (by decide)).1 h hmake⟩

end Pintos.Lib.Ustar

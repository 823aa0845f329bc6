import Mathlib.Algebra.Group.Nat.Defs
import Mathlib.Algebra.Ring.Int.Defs
import Mathlib.Tactic.Ring

/-!
# 64-bit division on a 32-bit machine

The routines behind `/` and `%` on `long long`, built from the `divl` instruction, which
divides 64 bits by 32 and traps if the quotient does not fit in 32.
Source `lib/arithmetic.c:21–189`.
-/

namespace Pintos.Lib.Arithmetic

/-- The `divl` instruction: the quotient, or none for the divide error. -/
def divl (n : BitVec 64) (d : BitVec 32) : Option (BitVec 32) :=
  if d = 0 ∨ 2 ^ 32 ≤ n.toNat / d.toNat then none
  else some (BitVec.ofNat 32 (n.toNat / d.toNat))

/-- One step of `nlz`: below the bound the top `w` bits are zero and are shifted out. -/
def nlzStep (bound : BitVec 32) (w : Nat) (s : Nat × BitVec 32) : Nat × BitVec 32 :=
  if s.2 ≤ bound then (s.1 + w, s.2 <<< w) else s

/-- The number of leading zero bits of a nonzero word. -/
def nlz (x : BitVec 32) : Nat :=
  let s := nlzStep 0x0000FFFF 16 (0, x)
  let s := nlzStep 0x00FFFFFF 8 s
  let s := nlzStep 0x0FFFFFFF 4 s
  let s := nlzStep 0x3FFFFFFF 2 s
  if s.2 ≤ 0x7FFFFFFF then s.1 + 1 else s.1

/-- Unsigned division; none if a `divl` traps. -/
def udiv64 (n d : BitVec 64) : Option (BitVec 64) :=
  if d >>> 32 = 0 then
    let b := 1#64 <<< 32
    let n1 : BitVec 32 := (n >>> 32).setWidth 32
    let n0 : BitVec 32 := n.setWidth 32
    let d0 : BitVec 32 := d.setWidth 32
    (divl (b * (n1 % d0).setWidth 64 + n0.setWidth 64) d0).map fun q =>
      q.setWidth 64 + b * (n1 / d0).setWidth 64
  else if n < d then some 0
  else
    let d1 : BitVec 32 := (d >>> 32).setWidth 32
    let s := nlz d1
    (divl (n >>> 1) (((d <<< s) >>> 32).setWidth 32)).map fun (q : BitVec 32) =>
      let q : BitVec 64 := BitVec.setWidth 64 (q >>> (31 - s))
      if n - (q - 1) * d < d then q - 1 else q

/-- Unsigned remainder, returned as a `uint32_t`. -/
def umod64 (n d : BitVec 64) : Option (BitVec 32) :=
  (udiv64 n d).map fun q => (n - d * q).setWidth 32

/-- The absolute value as a `uint64_t`. -/
def abs64 (n : BitVec 64) : BitVec 64 := if 0 ≤ n.toInt then n else -n

/-- Signed division. -/
def sdiv64 (n d : BitVec 64) : Option (BitVec 64) :=
  (udiv64 (abs64 n) (abs64 d)).map fun q_abs =>
    if (n.toInt < 0) = (d.toInt < 0) then q_abs else -q_abs

/-- Signed remainder, returned as an `int32_t`. -/
def smod64 (n d : BitVec 64) : Option (BitVec 32) :=
  (sdiv64 n d).map fun q => (n - d * q).setWidth 32

/-- The routine for signed 64-bit `/`. -/
def divdi3 (n d : BitVec 64) : Option (BitVec 64) := sdiv64 n d

/-- The routine for signed 64-bit `%`: the `int32_t` is widened to `long long`. -/
def moddi3 (n d : BitVec 64) : Option (BitVec 64) := (smod64 n d).map (·.signExtend 64)

/-- The routine for unsigned 64-bit `/`. -/
def udivdi3 (n d : BitVec 64) : Option (BitVec 64) := udiv64 n d

/-- The routine for unsigned 64-bit `%`: the `uint32_t` is widened to `unsigned long long`. -/
def umoddi3 (n d : BitVec 64) : Option (BitVec 64) := (umod64 n d).map (·.setWidth 64)

/-! ## Leading zeros -/

/-- A state of `nlz` on the word `x`: the bits shifted out were zero, and at most `w` more
leading zeros are to come. -/
structure NlzState (x : BitVec 32) (w : Nat) (s : Nat × BitVec 32) : Prop where
  shifted : s.2.toNat = x.toNat * 2 ^ s.1
  large : 2 ^ (31 - w) ≤ s.2.toNat

private theorem NlzState.step {x bound : BitVec 32} {w v : Nat} {s : Nat × BitVec 32}
    (h : NlzState x (w + v) s) (hb : bound.toNat + 1 = 2 ^ (32 - w)) (hw : w + v ≤ 31)
    (hv : v + 1 = w) : NlzState x v (nlzStep bound w s) := by
  unfold nlzStep
  split
  · next hle =>
    have hlt : s.2.toNat < 2 ^ (32 - w) := by
      have := BitVec.le_def.mp hle
      omega
    have hfit : s.2.toNat * 2 ^ w < 2 ^ 32 := by
      calc s.2.toNat * 2 ^ w < 2 ^ (32 - w) * 2 ^ w :=
            Nat.mul_lt_mul_of_pos_right hlt (Nat.two_pow_pos w)
        _ = 2 ^ 32 := by rw [← Nat.pow_add]; congr 1; omega
    have hnat : (s.2 <<< w).toNat = s.2.toNat * 2 ^ w := by
      rw [BitVec.toNat_shiftLeft, Nat.shiftLeft_eq, Nat.mod_eq_of_lt hfit]
    constructor
    · rw [hnat, h.shifted, Nat.pow_add, Nat.mul_assoc]
    · rw [hnat]
      calc 2 ^ (31 - v) = 2 ^ (31 - (w + v)) * 2 ^ w := by rw [← Nat.pow_add]; congr 1; omega
        _ ≤ s.2.toNat * 2 ^ w := Nat.mul_le_mul_right _ h.large
  · next hgt =>
    constructor
    · exact h.shifted
    · have hge : 2 ^ (32 - w) ≤ s.2.toNat := by
        have : ¬ s.2.toNat ≤ bound.toNat := fun h => hgt (BitVec.le_def.mpr h)
        omega
      have hexp : 31 - v = 32 - w := by omega
      rw [hexp]
      exact hge

private theorem nlz_eq (x : BitVec 32) :
    nlz x = (nlzStep 0x7FFFFFFF 1 (nlzStep 0x3FFFFFFF 2 (nlzStep 0x0FFFFFFF 4
      (nlzStep 0x00FFFFFF 8 (nlzStep 0x0000FFFF 16 (0, x)))))).1 := by
  unfold nlz
  dsimp only
  generalize nlzStep 0x3FFFFFFF 2 _ = s
  unfold nlzStep
  split
  · rfl
  · rfl

/-- Shifting a nonzero word by its leading zeros sets the top bit and loses nothing. -/
theorem nlz_spec {x : BitVec 32} (hx : x ≠ 0) :
    2 ^ 31 ≤ x.toNat * 2 ^ nlz x ∧ x.toNat * 2 ^ nlz x < 2 ^ 32 := by
  have hpos : x.toNat ≠ 0 := fun h => hx (BitVec.eq_of_toNat_eq h)
  have h0 : NlzState x (16 + 15) (0, x) := ⟨(Nat.mul_one _).symm, Nat.one_le_iff_ne_zero.mpr hpos⟩
  have h1 : NlzState x (8 + 7) _ := @NlzState.step x 0x0000FFFF 16 15 _ h0 rfl (by decide) rfl
  have h2 : NlzState x (4 + 3) _ := @NlzState.step x 0x00FFFFFF 8 7 _ h1 rfl (by decide) rfl
  have h3 : NlzState x (2 + 1) _ := @NlzState.step x 0x0FFFFFFF 4 3 _ h2 rfl (by decide) rfl
  have h4 : NlzState x (1 + 0) _ := @NlzState.step x 0x3FFFFFFF 2 1 _ h3 rfl (by decide) rfl
  have h5 : NlzState x 0 _ := @NlzState.step x 0x7FFFFFFF 1 0 _ h4 rfl (by decide) rfl
  rw [nlz_eq, ← h5.shifted]
  exact ⟨h5.large, BitVec.isLt _⟩

/-! ## Unsigned division -/

private theorem divl_eq {n : BitVec 64} {d : BitVec 32} {q : Nat} (hd : d.toNat ≠ 0)
    (hq : n.toNat / d.toNat = q) (hlt : q < 2 ^ 32) : divl n d = some (BitVec.ofNat 32 q) := by
  have hd' : d ≠ 0 := fun h => hd (congrArg BitVec.toNat h)
  unfold divl
  rw [hq, if_neg (not_or.mpr ⟨hd', by omega⟩)]

private theorem two_digit_div (n d b : Nat) (hd : 0 < d) :
    (b * (n / b % d) + n % b) / d + b * (n / b / d) = n / d := by
  have hn : n = (b * (n / b % d) + n % b) + d * (b * (n / b / d)) := by
    have h1 := Nat.div_add_mod n b
    have h2 := Nat.div_add_mod (n / b) d
    calc n = b * (n / b) + n % b := h1.symm
      _ = b * (d * (n / b / d) + n / b % d) + n % b := by rw [h2]
      _ = _ := by ring
  conv_rhs => rw [hn, Nat.add_mul_div_left _ _ hd]

private theorem two_digit_lt {n d b : Nat} (hd : 0 < d) (hb : 0 < b) :
    (b * (n / b % d) + n % b) / d < b := by
  rw [Nat.div_lt_iff_lt_mul hd]
  have h1 : n / b % d + 1 ≤ d := Nat.mod_lt _ hd
  have h2 : n % b < b := Nat.mod_lt _ hb
  calc b * (n / b % d) + n % b < b * (n / b % d + 1) := by rw [Nat.mul_add]; omega
    _ ≤ b * d := Nat.mul_le_mul_left b h1

/-- A divisor cut off to its top 32 bits overestimates the quotient by at most one: `v` holds
those bits, `e` is the unit of the last of them. -/
theorem estimate_le {n d v e : Nat} (hn : n < 2 ^ 64) (hv : 2 ^ 31 ≤ v) (he : e = 2 ∨ 4 ≤ e)
    (hle : v * e ≤ d) (hlt : d < v * e + e) :
    n / d ≤ n / (v * e) ∧ n / (v * e) ≤ n / d + 1 := by
  have hve : 0 < v * e := Nat.mul_pos (by omega) (by omega)
  have hd : 0 < d := by omega
  constructor
  · exact Nat.div_le_div_left hle hve
  generalize hq : n / (v * e) = q
  cases q with
  | zero => exact Nat.zero_le _
  | succ p =>
    rw [Nat.add_le_add_iff_right, Nat.le_div_iff_mul_le hd]
    have hqn : (p + 1) * (v * e) ≤ n := by rw [← hq]; exact Nat.div_mul_le_self n _
    -- the error of the `p` multiples of the divisor stays below one multiple
    have herr : p * (d - v * e) ≤ v * e := by
      have hbound : (p + 1) * e * 2 ^ 31 < 2 ^ 33 * 2 ^ 31 := by
        calc (p + 1) * e * 2 ^ 31 ≤ (p + 1) * e * v := Nat.mul_le_mul_left _ hv
          _ = (p + 1) * (v * e) := by ring
          _ < 2 ^ 33 * 2 ^ 31 := by omega
      have hpe : (p + 1) * e < 2 ^ 33 := Nat.lt_of_mul_lt_mul_right hbound
      have hve' : 2 ^ 31 * e ≤ v * e := Nat.mul_le_mul_right e hv
      rcases he with rfl | he
      · calc p * (d - v * 2) ≤ p * 1 := Nat.mul_le_mul_left p (by omega)
          _ ≤ v * 2 := by omega
      · calc p * (d - v * e) ≤ (p + 1) * e := Nat.mul_le_mul (by omega) (by omega)
          _ ≤ v * e := by omega
    calc p * d = p * (v * e) + p * (d - v * e) := by rw [← Nat.mul_add]; congr 1; omega
      _ ≤ p * (v * e) + v * e := Nat.add_le_add_left herr _
      _ = (p + 1) * (v * e) := by ring
      _ ≤ n := hqn

private theorem correct_estimate {n d q : Nat} (hd : 0 < d) (hdn : d ≤ n) (hle : n / d ≤ q)
    (hle' : q ≤ n / d + 1) :
    (q - 1) * d ≤ n ∧ (if n - (q - 1) * d < d then q - 1 else q) = n / d := by
  have hone : 1 ≤ n / d := (Nat.le_div_iff_mul_le hd).mpr (by omega)
  have hmod := Nat.div_add_mod' n d
  have hlt := Nat.mod_lt n hd
  rcases Nat.eq_or_lt_of_le hle with rfl | hgt
  · have hsplit : (n / d - 1) * d + d = n / d * d := by
      rw [← Nat.succ_mul]; congr 1; omega
    constructor
    · omega
    · rw [if_neg (by omega)]
  · have hq : q - 1 = n / d := by omega
    rw [hq]
    constructor
    · omega
    · rw [if_pos (by omega)]

private theorem toNat_digits (hi lo : BitVec 32) :
    (1#64 <<< 32 * hi.setWidth 64 + lo.setWidth 64).toNat = 2 ^ 32 * hi.toNat + lo.toNat := by
  have hb : (1#64 <<< 32).toNat = 2 ^ 32 := rfl
  have hhi := hi.isLt
  have hlo := lo.isLt
  rw [BitVec.toNat_add, BitVec.toNat_mul, hb, BitVec.toNat_setWidth, BitVec.toNat_setWidth]
  omega

private theorem toNat_high (n : BitVec 64) : ((n >>> 32).setWidth 32).toNat = n.toNat / 2 ^ 32 := by
  have hn := n.isLt
  rw [BitVec.toNat_setWidth, BitVec.toNat_ushiftRight, Nat.shiftRight_eq_div_pow]
  omega

private theorem toNat_ne_zero {w : Nat} {x : BitVec w} (h : x ≠ 0) : x.toNat ≠ 0 :=
  fun h' => h (BitVec.eq_of_toNat_eq (by rw [h']; simp))

/-- The high word of the divisor tells whether it fits in 32 bits. -/
theorem ushiftRight_eq_zero_iff (d : BitVec 64) : d >>> 32 = 0 ↔ d.toNat < 2 ^ 32 := by
  rw [← BitVec.toNat_inj, BitVec.toNat_ushiftRight, Nat.shiftRight_eq_div_pow]
  change d.toNat / 2 ^ 32 = 0 ↔ _
  omega

private theorem udiv64_of_lt (n : BitVec 64) {d : BitVec 64} (hd : d ≠ 0) (hlt : d.toNat < 2 ^ 32) :
    udiv64 n d = some (n / d) := by
  have hpos := Nat.pos_of_ne_zero (toNat_ne_zero hd)
  have hd0 : (d.setWidth 32).toNat = d.toNat := by
    rw [BitVec.toNat_setWidth, Nat.mod_eq_of_lt hlt]
  have hquot := two_digit_lt (n := n.toNat) hpos (Nat.two_pow_pos 32)
  have hdivl := divl_eq (n := 1#64 <<< 32 * ((n >>> 32).setWidth 32 % d.setWidth 32).setWidth 64 +
    (n.setWidth 32).setWidth 64) (d := d.setWidth 32)
    (q := (2 ^ 32 * (n.toNat / 2 ^ 32 % d.toNat) + n.toNat % 2 ^ 32) / d.toNat)
    (by omega) (by rw [toNat_digits, BitVec.toNat_umod, toNat_high, hd0, BitVec.toNat_setWidth])
    hquot
  unfold udiv64
  rw [if_pos ((ushiftRight_eq_zero_iff d).mpr hlt)]
  dsimp only
  rw [hdivl, Option.map_some, BitVec.add_comm]
  apply congrArg some
  apply BitVec.eq_of_toNat_eq
  rw [toNat_digits, BitVec.toNat_udiv, BitVec.toNat_udiv, toNat_high, hd0, BitVec.toNat_ofNat,
    Nat.mod_eq_of_lt hquot, Nat.add_comm]
  exact two_digit_div _ _ _ hpos

/-- What shifting the divisor `d` by the leading zeros `s` of its high word gives: a word `v` of
32 significant bits, which is `d` cut off to a multiple of `2 ^ (32 - s)`. -/
structure Normalised (d s v : Nat) : Prop where
  shift_le : s ≤ 31
  fits : d * 2 ^ s < 2 ^ 64
  word : v = d * 2 ^ s / 2 ^ 32
  top : 2 ^ 31 ≤ v
  le : v * 2 ^ (32 - s) ≤ d
  lt : d < v * 2 ^ (32 - s) + 2 ^ (32 - s)

private theorem normalised {d s : Nat} (hbig : 2 ^ 31 ≤ d / 2 ^ 32 * 2 ^ s)
    (hfit : d / 2 ^ 32 * 2 ^ s < 2 ^ 32) : Normalised d s (d * 2 ^ s / 2 ^ 32) := by
  have hspos := Nat.two_pow_pos s
  have hs : s ≤ 31 := by
    have hd1 : 1 ≤ d / 2 ^ 32 := by
      rcases Nat.eq_zero_or_pos (d / 2 ^ 32) with h | h
      · rw [h] at hbig
        omega
      · exact h
    have hlt : 2 ^ s < 2 ^ 32 := Nat.lt_of_le_of_lt (Nat.le_mul_of_pos_left _ hd1) hfit
    exact Nat.lt_succ_iff.mp ((Nat.pow_lt_pow_iff_right (by decide)).mp hlt)
  have hunit : 2 ^ (32 - s) * 2 ^ s = 2 ^ 32 := by
    rw [← Nat.pow_add]
    congr 1
    omega
  have hdiv := Nat.div_add_mod d (2 ^ 32)
  constructor
  · exact hs
  · have hd1 : d / 2 ^ 32 < 2 ^ (32 - s) := by
      apply Nat.lt_of_mul_lt_mul_right (a := 2 ^ s)
      rw [hunit]
      exact hfit
    have hd : d < 2 ^ 32 * 2 ^ (32 - s) := by omega
    calc d * 2 ^ s < 2 ^ 32 * 2 ^ (32 - s) * 2 ^ s := Nat.mul_lt_mul_of_pos_right hd hspos
      _ = 2 ^ 64 := by rw [Nat.mul_assoc, hunit, ← Nat.pow_add]
  · rfl
  · rw [Nat.le_div_iff_mul_le (Nat.two_pow_pos 32)]
    calc 2 ^ 31 * 2 ^ 32 ≤ d / 2 ^ 32 * 2 ^ s * 2 ^ 32 := Nat.mul_le_mul_right _ hbig
      _ = d / 2 ^ 32 * 2 ^ 32 * 2 ^ s := by ring
      _ ≤ d * 2 ^ s := Nat.mul_le_mul_right _ (Nat.div_mul_le_self d _)
  · apply Nat.le_of_mul_le_mul_right _ hspos
    rw [Nat.mul_assoc, hunit]
    exact Nat.div_mul_le_self _ _
  · apply Nat.lt_of_mul_lt_mul_right (a := 2 ^ s)
    rw [Nat.add_mul, Nat.mul_assoc, hunit]
    have := Nat.lt_div_mul_add (a := d * 2 ^ s) (Nat.two_pow_pos 32)
    exact this

/-- The estimate of the quotient is the quotient by the cut-off divisor. -/
theorem Normalised.estimate {d s v : Nat} (h : Normalised d s v) (n : Nat) :
    n / 2 / v / 2 ^ (31 - s) = n / (v * 2 ^ (32 - s)) := by
  have hexp : 2 ^ (32 - s) = 2 * 2 ^ (31 - s) := by
    have hs := h.shift_le
    rw [← Nat.pow_succ']
    congr 1
    omega
  rw [Nat.div_div_eq_div_mul, Nat.div_div_eq_div_mul, hexp]
  congr 1
  ring

private theorem Normalised.divl_fits {d s v n : Nat} (h : Normalised d s v) (hn : n < 2 ^ 64) :
    n / 2 / v < 2 ^ 32 := by
  have htop := h.top
  rw [Nat.div_lt_iff_lt_mul (by omega)]
  omega

private theorem Normalised.estimate_le {d s v n : Nat} (h : Normalised d s v) (hn : n < 2 ^ 64) :
    n / d ≤ n / 2 / v / 2 ^ (31 - s) ∧ n / 2 / v / 2 ^ (31 - s) ≤ n / d + 1 := by
  have hs := h.shift_le
  rw [h.estimate]
  apply Arithmetic.estimate_le hn h.top _ h.le h.lt
  rcases Nat.eq_or_lt_of_le hs with rfl | hlt
  · exact .inl rfl
  · have hpow : 2 ^ 2 ≤ 2 ^ (32 - s) := Nat.pow_le_pow_right (by decide) (by omega)
    exact .inr hpow

private theorem correct_word {n d q : BitVec 64} (hd : d ≠ 0) (hdn : d.toNat ≤ n.toNat)
    (hle : n.toNat / d.toNat ≤ q.toNat) (hle' : q.toNat ≤ n.toNat / d.toNat + 1) :
    (if n - (q - 1) * d < d then q - 1 else q) = n / d := by
  have hpos := Nat.pos_of_ne_zero (toNat_ne_zero hd)
  have hone : 1 ≤ n.toNat / d.toNat := (Nat.le_div_iff_mul_le hpos).mpr (by omega)
  have hn := n.isLt
  have hpred : (q - 1).toNat = q.toNat - 1 := by
    apply BitVec.toNat_sub_of_le
    exact BitVec.le_def.mpr (Nat.le_trans hone hle)
  obtain ⟨hmul, hif⟩ := correct_estimate hpos hdn hle hle'
  have hprod : ((q - 1) * d).toNat = (q.toNat - 1) * d.toNat := by
    rw [BitVec.toNat_mul, hpred, Nat.mod_eq_of_lt (by omega)]
  have hrem : (n - (q - 1) * d).toNat = n.toNat - (q.toNat - 1) * d.toNat := by
    rw [BitVec.toNat_sub_of_le, hprod]
    rw [BitVec.le_def, hprod]
    exact hmul
  apply BitVec.eq_of_toNat_eq
  rw [BitVec.toNat_udiv, ← hif, apply_ite BitVec.toNat, hpred]
  simp only [BitVec.lt_def, hrem]

/-- Division by a larger divisor, through the estimate from its top 32 bits. -/
theorem udiv64_of_ge {n d : BitVec 64} (hge : 2 ^ 32 ≤ d.toNat) (hdn : d.toNat ≤ n.toNat) :
    udiv64 n d = some (n / d) := by
  have hn := n.isLt
  have hd1 : (d >>> 32).setWidth 32 ≠ 0#32 := by
    intro h
    have := congrArg BitVec.toNat h
    rw [toNat_high, BitVec.toNat_ofNat] at this
    omega
  have hnlz := nlz_spec hd1
  unfold udiv64
  rw [if_neg (fun h => absurd ((ushiftRight_eq_zero_iff d).mp h) (by omega)),
    if_neg (fun h => absurd (BitVec.lt_def.mp h) (by omega))]
  dsimp only
  rw [toNat_high] at hnlz
  generalize nlz ((d >>> 32).setWidth 32) = s at hnlz ⊢
  have hnorm := normalised hnlz.1 hnlz.2
  generalize hv : d.toNat * 2 ^ s / 2 ^ 32 = v at hnorm
  have hword : (((d <<< s) >>> 32).setWidth 32).toNat = v := by
    rw [toNat_high, BitVec.toNat_shiftLeft, Nat.shiftLeft_eq, Nat.mod_eq_of_lt hnorm.fits, hv]
  have hhalf : (n >>> 1).toNat = n.toNat / 2 := by
    rw [BitVec.toNat_ushiftRight, Nat.shiftRight_eq_div_pow]
  have hdivl := hnorm.divl_fits hn
  have htop := hnorm.top
  rw [divl_eq (q := n.toNat / 2 / v) (by rw [hword]; omega) (by rw [hword, hhalf]) hdivl,
    Option.map_some]
  apply congrArg some
  have hq : (BitVec.setWidth 64 (BitVec.ofNat 32 (n.toNat / 2 / v) >>> (31 - s))).toNat =
      n.toNat / 2 / v / 2 ^ (31 - s) := by
    have hle := Nat.div_le_self (n.toNat / 2 / v) (2 ^ (31 - s))
    rw [BitVec.toNat_setWidth, BitVec.toNat_ushiftRight, BitVec.toNat_ofNat,
      Nat.mod_eq_of_lt hdivl, Nat.shiftRight_eq_div_pow, Nat.mod_eq_of_lt (by omega)]
  have hest := hnorm.estimate_le hn
  rw [← hq] at hest
  have hd : d ≠ 0 := by
    intro h
    rw [h] at hge
    exact absurd hge (by decide)
  exact correct_word hd hdn hest.1 hest.2

private theorem udiv64_eq (n : BitVec 64) {d : BitVec 64} (hd : d ≠ 0) :
    udiv64 n d = some (n / d) := by
  rcases Nat.lt_or_ge d.toNat (2 ^ 32) with hlt | hge
  · exact udiv64_of_lt n hd hlt
  rcases Nat.lt_or_ge n.toNat d.toNat with hnd | hdn
  · unfold udiv64
    rw [if_neg (fun h => absurd ((ushiftRight_eq_zero_iff d).mp h) (by omega)),
      if_pos (BitVec.lt_def.mpr hnd)]
    apply congrArg some
    apply BitVec.eq_of_toNat_eq
    rw [BitVec.toNat_udiv, Nat.div_eq_of_lt hnd]
    rfl
  · exact udiv64_of_ge hge hdn

/-! ## Signed division and the remainders -/

private theorem abs64_ne_zero {d : BitVec 64} (hd : d ≠ 0) : abs64 d ≠ 0 := by
  unfold abs64
  split
  · exact hd
  · exact fun h => hd (BitVec.neg_eq_zero_iff.mp h)

/-- Signed division truncates; where the quotient does not fit, it wraps. -/
theorem sdiv64_eq (n : BitVec 64) {d : BitVec 64} (hd : d ≠ 0) :
    sdiv64 n d = some (n.sdiv d) := by
  unfold sdiv64
  rw [udiv64_eq _ (abs64_ne_zero hd), Option.map_some, BitVec.sdiv_eq, BitVec.msb_eq_toInt,
    BitVec.msb_eq_toInt]
  apply congrArg some
  unfold abs64
  rcases Int.lt_or_le n.toInt 0 with hn | hn
  · rcases Int.lt_or_le d.toInt 0 with hd' | hd'
    · simp [hn, hd', Int.not_le.mpr]
    · simp [hn, hd', Int.not_le.mpr, Int.not_lt.mpr]
  · rcases Int.lt_or_le d.toInt 0 with hd' | hd'
    · simp [hn, hd', Int.not_le.mpr, Int.not_lt.mpr]
    · simp [hn, hd', Int.not_lt.mpr]

/-- Unsigned and signed division give the exact quotient for every divisor but zero, and none of
their `divl` instructions traps. -/
theorem division_exact :
    (∀ n d : BitVec 64, d ≠ 0 →
      ∃ q, udiv64 n d = some q ∧ q.toNat = n.toNat / d.toNat) ∧
    ∀ n d : BitVec 64, d ≠ 0 → (n.toInt, d.toInt) ≠ (-2 ^ 63, -1) →
      ∃ q, sdiv64 n d = some q ∧ q.toInt = n.toInt.tdiv d.toInt := by
  constructor
  · intro n d hd
    exact ⟨_, udiv64_eq n hd, BitVec.toNat_udiv⟩
  · intro n d hd hne
    refine ⟨_, sdiv64_eq n hd, BitVec.toInt_sdiv_of_ne_or_ne n d ?_⟩
    by_contra hcon
    rw [not_or, not_not, not_not] at hcon
    apply hne
    rw [hcon.1, hcon.2]
    rfl

/-- The largest dividend by a divisor above 32 bits, and the most negative one by one. -/
theorem division_exact_extremes :
    (∃ q, udiv64 0xFFFFFFFFFFFFFFFF 0x1FFFFFFFF = some q ∧ q.toNat = 0x80000000) ∧
    ∃ q, sdiv64 0x8000000000000000 1 = some q ∧ q.toInt = -2 ^ 63 :=
  ⟨division_exact.1 0xFFFFFFFFFFFFFFFF 0x1FFFFFFFF (by decide),
    division_exact.2 0x8000000000000000 1 (by decide) (by decide)⟩

private theorem umoddi3_eq (n : BitVec 64) {d : BitVec 64} (hd : d ≠ 0) :
    ∃ r, umoddi3 n d = some r ∧ r.toNat = n.toNat % d.toNat % 2 ^ 32 := by
  refine ⟨_, by rw [umoddi3, umod64, udiv64_eq n hd, Option.map_some, Option.map_some], ?_⟩
  have hmod : n - d * (n / d) = n % d := by
    apply BitVec.eq_of_toNat_eq
    have hle : d.toNat * (n.toNat / d.toNat) ≤ n.toNat := Nat.mul_div_le _ _
    have hn := n.isLt
    have hprod : (d * (n / d)).toNat = d.toNat * (n.toNat / d.toNat) := by
      rw [BitVec.toNat_mul, BitVec.toNat_udiv, Nat.mod_eq_of_lt (by omega)]
    rw [BitVec.toNat_sub_of_le (by rw [BitVec.le_def, hprod]; exact hle), hprod, BitVec.toNat_umod,
      Nat.mod_def]
  rw [hmod, BitVec.toNat_setWidth, BitVec.toNat_setWidth, BitVec.toNat_umod]
  omega

private theorem moddi3_eq (n : BitVec 64) {d : BitVec 64} (hd : d ≠ 0) :
    ∃ r, moddi3 n d = some r ∧ r.toInt = (n.toInt.tmod d.toInt).bmod (2 ^ 32) := by
  refine ⟨_, by rw [moddi3, smod64, sdiv64_eq n hd, Option.map_some, Option.map_some], ?_⟩
  have hrem : (n - d * n.sdiv d).toInt = (n.toInt.tmod d.toInt).bmod (2 ^ 64) := by
    rw [BitVec.toInt_sub, BitVec.toInt_mul, BitVec.toInt_sdiv, Int.mul_bmod_bmod,
      Int.sub_bmod_bmod, Int.tmod_def]
  have hdvd : 2 ^ 32 ∣ 2 ^ 64 := Nat.pow_dvd_pow 2 (by decide)
  rw [BitVec.toInt_signExtend_of_le (by decide), BitVec.toInt_setWidth,
    ← Int.bmod_bmod_of_dvd hdvd, ← BitVec.toInt_eq_toNat_bmod, hrem, Int.bmod_bmod_of_dvd hdvd]

/-- The remainders are right exactly where the true one fits the helpers' return types, a
`uint32_t` and an `int32_t`. -/
theorem remainder_exact_iff (n d : BitVec 64) (hd : d ≠ 0) :
    ((∃ r, umoddi3 n d = some r ∧ r.toNat = n.toNat % d.toNat) ↔ n.toNat % d.toNat < 2 ^ 32) ∧
    ((n.toInt, d.toInt) ≠ (-2 ^ 63, -1) →
      ((∃ r, moddi3 n d = some r ∧ r.toInt = n.toInt - d.toInt * n.toInt.tdiv d.toInt) ↔
        -2 ^ 31 ≤ n.toInt.tmod d.toInt ∧ n.toInt.tmod d.toInt < 2 ^ 31)) := by
  constructor
  · obtain ⟨r, hr, hval⟩ := umoddi3_eq n hd
    rw [hr]
    simp only [Option.some.injEq, exists_eq_left', hval]
    omega
  · intro _
    obtain ⟨r, hr, hval⟩ := moddi3_eq n hd
    rw [hr, ← Int.tmod_def]
    simp only [Option.some.injEq, exists_eq_left', hval]
    generalize n.toInt.tmod d.toInt = x
    constructor
    · intro h
      have hle := @Int.le_bmod x (2 ^ 32) (by decide)
      have hlt := @Int.bmod_lt x (2 ^ 32) (by decide)
      omega
    · intro h
      apply Int.bmod_eq_of_le
      · omega
      · omega

/-- `2 ^ 32 % 2 ^ 33` comes out as zero, and `2 ^ 31 % 2 ^ 32` as negative. -/
theorem remainder_truncated :
    umoddi3 0x100000000 0x200000000 = some 0 ∧
      (0x100000000 : BitVec 64).toNat % (0x200000000 : BitVec 64).toNat = 2 ^ 32 ∧
    moddi3 0x80000000 0x100000000 = some 0xFFFFFFFF80000000 ∧
      (0xFFFFFFFF80000000 : BitVec 64).toInt = -2 ^ 31 ∧
      (0x80000000 : BitVec 64).toInt - (0x100000000 : BitVec 64).toInt *
        (0x80000000 : BitVec 64).toInt.tdiv (0x100000000 : BitVec 64).toInt = 2 ^ 31 := by
  decide

/-- The largest remainders that survive. -/
theorem remainder_exact_largest :
    (∃ r, umoddi3 0xFFFFFFFF 0x100000000 = some r ∧ r.toNat = 0xFFFFFFFF) ∧
    ∃ r, moddi3 0x7FFFFFFF 0x80000000 = some r ∧ r.toInt = 0x7FFFFFFF :=
  ⟨(remainder_exact_iff 0xFFFFFFFF 0x100000000 (by decide)).1.mpr (by decide),
    ((remainder_exact_iff 0x7FFFFFFF 0x80000000 (by decide)).2 (by decide)).mpr (by decide)⟩

end Pintos.Lib.Arithmetic

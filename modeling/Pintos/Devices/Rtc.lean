import Mathlib.Algebra.Group.Nat.Defs
import Mathlib.Algebra.Ring.Int.Defs
import Mathlib.Data.BitVec
import Mathlib.Tactic.IntervalCases

/-!
# The real-time clock

The conversion of the time that the CMOS registers show into seconds since 1970, and the Gregorian
calendar it should follow. The loop that reads the registers gives none when it runs out of rounds,
and so does an access outside the table of months.
Source `devices/rtc.c:38–111`, `devices/rtc.h:4`.
-/

namespace Pintos.Devices.Rtc

/-- The clock registers, `devices/rtc.c:16–21`. -/
inductive Register
  | sec
  | min
  | hour
  | mday
  | mon
  | year
  deriving DecidableEq, Repr

/-- What each read of a register returns, by the number of reads before it. -/
abbrev Cmos := Nat → Register → BitVec 8

/-- `bcd_to_bin`, `devices/rtc.c:98–103`. -/
def bcdToBin (x : BitVec 8) : Nat := (x &&& 0x0f#8).toNat + (x >>> 4).toNat * 10

/-- The components of the time. -/
structure Components where
  sec : Nat
  min : Nat
  hour : Nat
  mday : Nat
  mon : Nat
  year : Nat
  deriving DecidableEq, Repr

/-- The loop that reads the components until the second is stable, `devices/rtc.c:64–73`. -/
def readComponents (cmos : Cmos) : Nat → Nat → Option Components
  | 0, _ => none
  | rounds + 1, n =>
    let c : Components := {
      sec := bcdToBin (cmos n .sec)
      min := bcdToBin (cmos (n + 1) .min)
      hour := bcdToBin (cmos (n + 2) .hour)
      mday := bcdToBin (cmos (n + 3) .mday)
      mon := bcdToBin (cmos (n + 4) .mon)
      year := bcdToBin (cmos (n + 5) .year) }
    if c.sec ≠ bcdToBin (cmos (n + 6) .sec) then readComponents cmos rounds (n + 7) else some c

/-- `days_per_month`, `devices/rtc.c:45–48`. -/
def daysPerMonth : List Int := [31, 28, 31, 30, 31, 30, 31, 31, 30, 31, 30, 31]

/-- The loop over the months, `devices/rtc.c:84–85`, in days. -/
def addMonths : Nat → Option Int
  | 0 => some 0
  | i + 1 => do return (← addMonths i) + (← daysPerMonth[i]?)

/-- The year since 1970, `devices/rtc.c:79–81`. -/
def sinceEpoch (year : Nat) : Int := if year < 70 then year + 100 - 70 else year - 70

/-- The conversion of the components, `devices/rtc.c:83–93`. Sums and products of an `int` and of a
`time_t` wrap, so that only the value modulo 2³² counts. -/
def toTime (c : Components) : Option Int := do
  let year := sinceEpoch c.year
  let months ← addMonths c.mon
  let leap := if c.mon > 2 ∧ year.tmod 4 = 0 then 24 * 60 * 60 else 0
  return ((year * 365 + (year - 1).tdiv 4) * 24 * 60 * 60 + months * 24 * 60 * 60 + leap +
    (c.mday - 1) * 24 * 60 * 60 + c.hour * 60 * 60 + c.min * 60 + c.sec) % 2 ^ 32

/-- `rtc_get_time`, `devices/rtc.c:42–96`. -/
def rtcGetTime (cmos : Cmos) (rounds : Nat) : Option Int := do
  toTime (← readComponents cmos rounds 0)

/-! ## The calendar -/

/-- A leap year of the Gregorian calendar. -/
def IsLeap (year : Nat) : Prop := year % 4 = 0 ∧ (year % 100 ≠ 0 ∨ year % 400 = 0)

instance (year : Nat) : Decidable (IsLeap year) := instDecidableAnd

/-- The days of a month. -/
def daysInMonth (year month : Nat) : Nat :=
  if month = 2 then if IsLeap year then 29 else 28
  else if month ∈ [4, 6, 9, 11] then 30 else 31

/-- The days from the beginning of 1970 to that of a year, counted from 1970. -/
def daysBeforeYear : Nat → Nat
  | 0 => 0
  | y + 1 => daysBeforeYear y + if IsLeap (1970 + y) then 366 else 365

/-- The days of the year before a month. -/
def daysBeforeMonth (year : Nat) : Nat → Nat
  | 0 => 0
  | m + 1 => daysBeforeMonth year m + if m = 0 then 0 else daysInMonth year m

/-- A date and time from 1970 to 2038. -/
structure DateTime where
  year : Nat
  month : Nat
  day : Nat
  hour : Nat
  minute : Nat
  second : Nat
  year_range : 1970 ≤ year ∧ year ≤ 2038
  month_range : 1 ≤ month ∧ month ≤ 12
  day_range : 1 ≤ day ∧ day ≤ daysInMonth year month
  hour_lt : hour < 24
  minute_lt : minute < 60
  second_lt : second < 60

namespace DateTime

/-- The seconds elapsed since the beginning of 1970. -/
def elapsed (d : DateTime) : Int :=
  (((daysBeforeYear (d.year - 1970) + daysBeforeMonth d.year d.month + (d.day - 1)) * 24 + d.hour) *
    60 + d.minute) * 60 + d.second

/-- The components that the registers show, with a year of two digits. -/
def components (d : DateTime) : Components :=
  ⟨d.second, d.minute, d.hour, d.day, d.month, d.year % 100⟩

end DateTime

/-- A number of two digits in BCD. -/
def toBcd (n : Nat) : BitVec 8 := BitVec.ofNat 8 (n / 10 * 16 + n % 10)

/-- The registers show the date and time, in BCD, and do not change. -/
def Shows (cmos : Cmos) (d : DateTime) : Prop :=
  ∀ n, cmos n .sec = toBcd d.second ∧ cmos n .min = toBcd d.minute ∧ cmos n .hour = toBcd d.hour ∧
    cmos n .mday = toBcd d.day ∧ cmos n .mon = toBcd d.month ∧ cmos n .year = toBcd (d.year % 100)

private theorem bcdToBin_toBcd : ∀ n < 100, bcdToBin (toBcd n) = n := by decide

private theorem daysInMonth_le (year month : Nat) : daysInMonth year month ≤ 31 := by
  unfold daysInMonth
  split_ifs <;> decide

private theorem Shows.readComponents {cmos : Cmos} {d : DateTime} (h : Shows cmos d) {rounds : Nat}
    (hrounds : 0 < rounds) : readComponents cmos rounds 0 = some d.components := by
  obtain ⟨rounds, rfl⟩ := Nat.exists_eq_succ_of_ne_zero hrounds.ne'
  have hday := d.day_range.2.trans (daysInMonth_le d.year d.month)
  have hmonth := d.month_range.2
  have hyear : d.year % 100 < 100 := Nat.mod_lt _ (by decide)
  have hsec := d.second_lt
  have hmin := d.minute_lt
  have hhour := d.hour_lt
  have hregs := fun n => (h n).1
  simp only [Rtc.readComponents, hregs, (h _).2.1, (h _).2.2.1, (h _).2.2.2.1, (h _).2.2.2.2.1,
    (h _).2.2.2.2.2, ne_eq, not_true_eq_false, if_false]
  rw [bcdToBin_toBcd _ (by omega), bcdToBin_toBcd _ (by omega), bcdToBin_toBcd _ (by omega),
    bcdToBin_toBcd _ (by omega), bcdToBin_toBcd _ (by omega), bcdToBin_toBcd _ hyear]
  rfl

/-! ## How far the conversion is off -/

private theorem daysBeforeYear_eq : ∀ y < 69, daysBeforeYear y = 365 * y + (y + 1) / 4 := by decide

private theorem isLeap_iff : ∀ y < 69, (IsLeap (1970 + y) ↔ y % 4 = 2) := by decide

private theorem addMonths_eq :
    ∀ month ≤ 12, addMonths month = some (daysPerMonth.take month).sum := by
  decide

private theorem daysBeforeMonth_eq (year : Nat) {month : Nat} (hmonth : 1 ≤ month ∧ month ≤ 12) :
    (daysBeforeMonth year month : Int) =
      (daysPerMonth.take (month - 1)).sum + if month > 2 ∧ IsLeap year then 1 else 0 := by
  obtain ⟨hone, htwelve⟩ := hmonth
  by_cases hleap : IsLeap year
  · interval_cases month <;> simp [daysBeforeMonth, daysInMonth, hleap, daysPerMonth]
  · interval_cases month <;> simp [daysBeforeMonth, daysInMonth, hleap, daysPerMonth]

/-- The loop counts the month itself, too. -/
theorem sum_take_month : ∀ month, 1 ≤ month ∧ month ≤ 12 →
    (daysPerMonth.take (month - 1)).sum + 28 ≤ (daysPerMonth.take month).sum ∧
      (month > 2 → (daysPerMonth.take (month - 1)).sum + 30 ≤ (daysPerMonth.take month).sum) ∧
      (daysPerMonth.take month).sum ≤ (daysPerMonth.take (month - 1)).sum + 31 := by
  rintro month ⟨hone, htwelve⟩
  interval_cases month <;> decide

private theorem sum_take_range : ∀ month ≤ 12, 0 ≤ (daysPerMonth.take month).sum ∧
    (daysPerMonth.take month).sum ≤ 365 := by decide

private theorem sinceEpoch_eq {year : Nat} (h : 1970 ≤ year ∧ year ≤ 2038) :
    sinceEpoch (year % 100) = (year - 1970 : Nat) := by
  unfold sinceEpoch
  split <;> omega

/-- The days that the conversion counts for the years and months before a day, with `S` for the
months up to this one and `T` for those before it, and the days `B` there are. -/
theorem lateDays_range {y month B : Nat} {S T : Int} (hy : y < 69)
    (hsum : T + 28 ≤ S ∧ (month > 2 → T + 30 ≤ S) ∧ S ≤ T + 31)
    (hbefore : (B : Int) = T + if month > 2 ∧ y % 4 = 2 then 1 else 0) :
    27 ≤ ((y : Int) * 365 + ((y : Int) - 1).tdiv 4 + S +
        if month > 2 ∧ (y : Int).tmod 4 = 0 then 1 else 0) - ((365 * y + (y + 1) / 4 : Nat) + B) ∧
      ((y : Int) * 365 + ((y : Int) - 1).tdiv 4 + S +
        if month > 2 ∧ (y : Int).tmod 4 = 0 then 1 else 0) - ((365 * y + (y + 1) / 4 : Nat) + B) ≤
        32 := by
  have hmod : (y : Int).tmod 4 = (y % 4 : Nat) := by rfl
  have hdiv : ((y : Int) - 1).tdiv 4 = ((y - 1) / 4 : Nat) := by
    obtain _ | y := y
    · rfl
    · rw [Nat.add_sub_cancel]
      push_cast
      rw [Int.add_sub_cancel, Int.tdiv_eq_ediv_of_nonneg (by omega)]
  rw [hmod, hdiv]
  by_cases hmonth : month > 2
  · simp only [hmonth, true_and] at hbefore ⊢
    split at hbefore <;> split <;> omega
  · simp only [hmonth, false_and, if_false] at hbefore ⊢
    omega

/-- No date of the range is converted right: the result is at least 27 days late, since the loop
over the months counts the month itself. -/
theorem rtc_get_time_late (cmos : Cmos) (d : DateTime) (rounds : Nat) (hshows : Shows cmos d)
    (hrounds : 0 < rounds) :
    rtcGetTime cmos rounds ≠ some d.elapsed ∧
      ∃ time, rtcGetTime cmos rounds = some time ∧ d.elapsed + 27 * 24 * 60 * 60 ≤ time ∧
        time ≤ d.elapsed + 32 * 24 * 60 * 60 := by
  suffices hlate : ∃ time, rtcGetTime cmos rounds = some time ∧
      d.elapsed + 27 * 24 * 60 * 60 ≤ time ∧ time ≤ d.elapsed + 32 * 24 * 60 * 60 by
    refine ⟨fun heq => ?_, hlate⟩
    obtain ⟨time, htime, hle, -⟩ := hlate
    rw [htime, Option.some.injEq] at heq
    omega
  obtain ⟨y, hy⟩ : ∃ y, d.year = 1970 + y := ⟨d.year - 1970, by have := d.year_range; omega⟩
  have hylt : y < 69 := by
    have := d.year_range
    omega
  have hsum := sum_take_month d.month d.month_range
  have hbefore := daysBeforeMonth_eq d.year d.month_range
  have hyears := daysBeforeYear_eq y hylt
  rw [hy, if_congr (and_congr_right fun _ => isLeap_iff y hylt) rfl rfl] at hbefore
  have hday := d.day_range.2.trans (daysInMonth_le d.year d.month)
  have htotal := (sum_take_range d.month d.month_range.2).2
  have hnonneg := (sum_take_range (d.month - 1) (by have := d.month_range; omega)).1
  unfold rtcGetTime toTime
  rw [hshows.readComponents hrounds]
  simp only [Option.bind_eq_bind, Option.bind_some, DateTime.components, sinceEpoch_eq d.year_range,
    addMonths_eq d.month d.month_range.2]
  refine ⟨_, rfl, ?_⟩
  have hidx : d.year - 1970 = y := by omega
  unfold DateTime.elapsed
  rw [hidx, hy, hyears]
  have hmin := d.minute_lt
  have hhour := d.hour_lt
  have hsec := d.second_lt
  have hone := d.day_range.1
  generalize (daysPerMonth.take d.month).sum = S at *
  generalize (daysPerMonth.take (d.month - 1)).sum = T at *
  generalize (daysBeforeMonth (1970 + y) d.month) = B at *
  have hlate := lateDays_range hylt hsum hbefore
  generalize ((y : Int) - 1).tdiv 4 = q at *
  split_ifs at hlate ⊢ <;> omega

/-- The beginning of 1970. -/
def epoch : DateTime where
  year := 1970
  month := 1
  day := 1
  hour := 0
  minute := 0
  second := 0
  year_range := by decide
  month_range := by decide
  day_range := by decide
  hour_lt := by decide
  minute_lt := by decide
  second_lt := by decide

/-- Registers that stay at the beginning of 1970. -/
def epochRegisters : Cmos := fun _ register =>
  match register with
  | .sec | .min | .hour => 0x00#8
  | .mday | .mon => 0x01#8
  | .year => 0x70#8

/-- The same with a day and a month, in BCD. -/
def epochRegistersAt (mday mon : BitVec 8) : Cmos := fun n register =>
  match register with
  | .mday => mday
  | .mon => mon
  | _ => epochRegisters n register

private theorem shows_epoch : Shows epochRegisters epoch := fun _ => ⟨rfl, rfl, rfl, rfl, rfl, rfl⟩

theorem rtc_get_time_late_epoch :
    Shows epochRegisters epoch ∧ rtcGetTime epochRegisters 1 ≠ some epoch.elapsed :=
  ⟨shows_epoch, (rtc_get_time_late epochRegisters epoch 1 shows_epoch (by decide)).1⟩

/-- The beginning of 1970 is 31 days after itself, and the clock goes back from the 31st of January
to the first of February. -/
theorem rtc_get_time_wrong :
    Shows epochRegisters epoch ∧ epoch.elapsed = 0 ∧
      rtcGetTime epochRegisters 1 = some 2678400 ∧
      rtcGetTime (epochRegistersAt 0x31#8 0x01#8) 1 = some 5270400 ∧
      rtcGetTime (epochRegistersAt 0x01#8 0x02#8) 1 = some 5097600 :=
  ⟨shows_epoch, by decide, by decide, by decide, by decide⟩

end Pintos.Devices.Rtc

/-
Acatl.Dates — dates and timestamps: `day_of_year`, `add_days` and `add_months` of
`date_helper.h`, and `Timestamp` of `timestamp.h`.

`date::sys_days` is a number of days, and `date::year_month_day` a date that need
not exist (`ok`); its year is a `short`, so that a day that is too far away is
given a year of this range. A `TimePoint` is a number of milliseconds.

  §1  the functions;
  §2  `YearMonthDay.ok`, and days whose year is in range;
  §3  `day_of_year` and `add_months`;
  §4  `Timestamp`: there and back.
-/
import Acatl.Lib.Calendar

namespace Acatl.Dates

open Lib.Calendar

/-! ## §1 Functions -/

/-- `date::year`: the conversion to `short`. -/
def toYear (y : Int) : Int := y.bmod 65536

/-- `date::year_month_day::ok`. -/
def ok (ymd : Date) : Prop := (-32767 ≤ ymd.year ∧ ymd.year ≤ 32767) ∧ ymd.Ok

instance (ymd : Date) : Decidable (ok ymd) := inferInstanceAs (Decidable (_ ∧ _))

/-- `date::year_month_day(d)`. -/
def yearMonthDay (d : Int) : Date := { ofNumber d with year := toYear (ofNumber d).year }

/-- `day_of_year`. -/
def dayOfYear (d : Date) : Int := number d - number ⟨d.year, 1, 1⟩ + 1

/-- `add_days`. -/
def addDays (d days : Int) : Int := d + days

/-- `d + months`. -/
def plusMonths (d : Date) (months : Int) : Date :=
  let month := d.month - 1 + months
  ⟨toYear (d.year + month / 12), month % 12 + 1, d.day⟩

/-- `add_months`. -/
def addMonths (d : Date) (months : Int) : Int :=
  let res := plusMonths d months
  if ¬ ok res then
    let mdl : Date := { res with day := lastDay res.year res.month }
    if res.day > mdl.day then number mdl else number res
  else
    number res

/-- `Timestamp`. -/
structure Timestamp where
  ymd : Date
  hours : Int
  minutes : Int
  seconds : Int
  milliseconds : Int
  deriving DecidableEq

/-- The milliseconds of a day. -/
def msPerDay : Int := 86400000

/-- `date::floor<date::days>(tp)`: the conversion to `int`. -/
def floorDays (tp : Int) : Int := (tp / msPerDay).bmod 4294967296

namespace Timestamp

/-- `Timestamp(tp)`. -/
def ofTimePoint (tp : Int) : Timestamp :=
  let dp := floorDays tp
  let sinceMidnight := tp - dp * msPerDay
  let hours := sinceMidnight.tdiv 3600000
  let minutes := (sinceMidnight - hours * 3600000).tdiv 60000
  let rest := sinceMidnight - hours * 3600000 - minutes * 60000
  let seconds := rest.tdiv 1000
  ⟨yearMonthDay dp, hours, minutes, seconds, rest - seconds * 1000⟩

/-- `to_timepoint`, without a result if it throws. -/
def toTimePoint (ts : Timestamp) : Option Int :=
  if ¬ Dates.ok ts.ymd then none
  else some (number ts.ymd * msPerDay +
    (ts.hours * 3600000 + ts.minutes * 60000 + ts.seconds * 1000 + ts.milliseconds))

/-- `ok`. -/
def ok (ts : Timestamp) : Prop :=
  Dates.ok ts.ymd ∧ (0 ≤ ts.hours ∧ ts.hours < 24) ∧ (0 ≤ ts.minutes ∧ ts.minutes < 60) ∧
    (0 ≤ ts.seconds ∧ ts.seconds < 60) ∧ 0 ≤ ts.milliseconds ∧ ts.milliseconds < 1000

end Timestamp

/-! ## §2 Days whose year is in range -/

/-- The year of the day is one of `date::year`. -/
def InRange (d : Int) : Prop := -32767 ≤ (ofNumber d).year ∧ (ofNumber d).year ≤ 32767

instance (d : Int) : Decidable (InRange d) := inferInstanceAs (Decidable (_ ∧ _))

theorem toYear_eq_iff (y : Int) : toYear y = y ↔ -32768 ≤ y ∧ y ≤ 32767 := by
  unfold toYear
  rw [Int.bmod_def]
  split <;> omega

/-- A date is the date of its day. -/
theorem yearMonthDay_number {ymd : Date} (h : ok ymd) :
    yearMonthDay (number ymd) = ymd ∧ InRange (number ymd) := by
  obtain ⟨hyear, hok⟩ := h
  unfold yearMonthDay InRange
  rw [ofNumber_number hok]
  refine ⟨?_, hyear⟩
  rw [(toYear_eq_iff _).mpr ⟨by omega, hyear.2⟩]

/-- A day in range is the day of its date. -/
theorem number_yearMonthDay {d : Int} (h : InRange d) :
    yearMonthDay d = ofNumber d ∧ ok (yearMonthDay d) ∧ number (yearMonthDay d) = d := by
  have hdate : yearMonthDay d = ofNumber d := by
    unfold yearMonthDay
    rw [(toYear_eq_iff _).mpr ⟨by have := h.1; omega, h.2⟩]
  rw [hdate]
  exact ⟨rfl, ⟨h, ofNumber_ok d⟩, number_ofNumber d⟩

/-- Only days in range are. -/
theorem inRange_of_number {d : Int} (hok : ok (yearMonthDay d))
    (hnumber : number (yearMonthDay d) = d) : InRange d := by
  have hrange := (yearMonthDay_number hok).2
  rwa [hnumber] at hrange

/-! ## §3 Days of a year, and months -/

theorem plusMonths_eq (d : Date) (months : Int) : plusMonths d months =
    ⟨toYear (Lib.Calendar.addMonths d months).year, (Lib.Calendar.addMonths d months).month,
      d.day⟩ := by
  unfold plusMonths Lib.Calendar.addMonths
  dsimp only
  rw [Date.mk.injEq]
  refine ⟨?_, by omega, rfl⟩
  congr 1
  omega

/-- **`add_months`**: the same day of another month, or the last one. -/
theorem addMonths_eq {d : Date} (hd : ok d) {months : Int}
    (hyear : -32767 ≤ (Lib.Calendar.addMonths d months).year ∧
      (Lib.Calendar.addMonths d months).year ≤ 32767) :
    addMonths d months = number (Lib.Calendar.addMonths d months) := by
  have hok := addMonths_ok hd.2 months
  have hday : (Lib.Calendar.addMonths d months).day = min d.day (lastDay
    (Lib.Calendar.addMonths d months).year (Lib.Calendar.addMonths d months).month) := rfl
  unfold addMonths
  rw [plusMonths_eq, (toYear_eq_iff _).mpr ⟨by omega, hyear.2⟩]
  generalize Lib.Calendar.addMonths d months = e at *
  obtain ⟨year, month, day⟩ := e
  dsimp only at *
  by_cases hlast : d.day ≤ lastDay year month
  · have hres : ok ⟨year, month, d.day⟩ := ⟨hyear, hok.month, hd.2.day.1, hlast⟩
    rw [if_neg (not_not.mpr hres), hday, min_eq_left hlast]
  · have hres : ¬ ok ⟨year, month, d.day⟩ := fun h => hlast h.2.day.2
    rw [if_pos hres, if_pos (not_le.mp hlast), hday, min_eq_right (not_le.mp hlast).le]

/-- The date that `add_months` gives exists. -/
theorem yearMonthDay_addMonths {d : Date} (hd : ok d) {months : Int}
    (hyear : -32767 ≤ (Lib.Calendar.addMonths d months).year ∧
      (Lib.Calendar.addMonths d months).year ≤ 32767) :
    yearMonthDay (addMonths d months) = Lib.Calendar.addMonths d months ∧
      ok (Lib.Calendar.addMonths d months) := by
  have hok : ok (Lib.Calendar.addMonths d months) := ⟨hyear, addMonths_ok hd.2 months⟩
  rw [addMonths_eq hd hyear]
  exact ⟨(yearMonthDay_number hok).1, hok⟩

/-- The days of a time point fit into the `int` of `date::days`. -/
def DaysFit (tp : Int) : Prop :=
  -2147483648 ≤ tp / msPerDay ∧ tp / msPerDay < 2147483648

instance (tp : Int) : Decidable (DaysFit tp) := inferInstanceAs (Decidable (_ ∧ _))

/-- Those of all years of `date::year` do. -/
theorem InRange.fit {d : Int} (h : InRange d) : -2147483648 ≤ d ∧ d < 2147483648 := by
  obtain ⟨hlow, hhigh⟩ := year_bounds (ofNumber_ok d)
  rw [number_ofNumber] at hlow hhigh
  have hfirst := newYear_mono h.1
  have hlast := newYear_mono (Int.add_le_add_right h.2 1)
  have hmin : number ⟨-32767, 1, 1⟩ = -12687428 := by decide
  have hmax : number ⟨32767 + 1, 1, 1⟩ = 11248738 := by decide
  omega

/-- The parts of a timestamp, for a day that fits into an `int`. -/
theorem ofTimePoint_parts {tp : Int} (h : DaysFit tp) :
    let ts := Timestamp.ofTimePoint tp
    ts.ymd = yearMonthDay (tp / msPerDay) ∧
      ts.hours * 3600000 + ts.minutes * 60000 + ts.seconds * 1000 + ts.milliseconds =
        tp % msPerDay ∧
      (0 ≤ ts.hours ∧ ts.hours < 24) ∧ (0 ≤ ts.minutes ∧ ts.minutes < 60) ∧
      (0 ≤ ts.seconds ∧ ts.seconds < 60) ∧ 0 ≤ ts.milliseconds ∧ ts.milliseconds < 1000 := by
  have hdays : floorDays tp = tp / msPerDay := by
    unfold DaysFit at h
    unfold floorDays
    rw [Int.bmod_def]
    split <;> omega
  have hrest : tp - tp / msPerDay * msPerDay = tp % msPerDay := by
    rw [Int.emod_def, Int.mul_comm]
  have hbounds : 0 ≤ tp % msPerDay ∧ tp % msPerDay < 86400000 := by
    unfold msPerDay
    omega
  unfold Timestamp.ofTimePoint
  dsimp only
  rw [hdays, hrest]
  generalize tp % msPerDay = rest at hbounds ⊢
  rw [Int.tdiv_eq_ediv_of_nonneg hbounds.1]
  have hminutes : 0 ≤ rest - rest / 3600000 * 3600000 := by omega
  rw [Int.tdiv_eq_ediv_of_nonneg hminutes]
  have hseconds : 0 ≤ rest - rest / 3600000 * 3600000 -
      (rest - rest / 3600000 * 3600000) / 60000 * 60000 := by omega
  rw [Int.tdiv_eq_ediv_of_nonneg hseconds]
  refine ⟨rfl, ?_⟩
  omega

/-- From a time point and back. -/
theorem toTimePoint_ofTimePoint {tp : Int} (h : DaysFit tp) :
    (Timestamp.ofTimePoint tp).toTimePoint = some tp ↔ InRange (tp / msPerDay) := by
  obtain ⟨hymd, htime, -⟩ := ofTimePoint_parts h
  unfold Timestamp.toTimePoint
  rw [hymd, htime]
  have htp : tp = tp / msPerDay * msPerDay + tp % msPerDay := (Int.ediv_mul_add_emod ..).symm
  constructor
  · intro hback
    by_cases hok : ok (yearMonthDay (tp / msPerDay))
    · rw [if_neg (not_not.mpr hok), Option.some.injEq] at hback
      refine inRange_of_number hok ?_
      have hdays : number (yearMonthDay (tp / msPerDay)) * msPerDay = tp / msPerDay * msPerDay := by
        omega
      exact Int.eq_of_mul_eq_mul_right (by decide) hdays
    · simp [hok] at hback
  · intro hrange
    obtain ⟨-, hok, hnumber⟩ := number_yearMonthDay hrange
    rw [if_neg (not_not.mpr hok), hnumber, ← htp]

/-- From a timestamp and back. -/
theorem ofTimePoint_toTimePoint {ts : Timestamp} (h : ts.ok) :
    ∃ tp, ts.toTimePoint = some tp ∧ InRange (tp / msPerDay) ∧ Timestamp.ofTimePoint tp = ts := by
  obtain ⟨hok, hhours, hminutes, hseconds, hmilliseconds⟩ := h
  obtain ⟨hymd, hrange⟩ := yearMonthDay_number hok
  refine ⟨_, if_neg (not_not.mpr hok), ?_⟩
  generalize htp : number ts.ymd * msPerDay + (ts.hours * 3600000 + ts.minutes * 60000 +
    ts.seconds * 1000 + ts.milliseconds) = tp
  have hdays : tp / msPerDay = number ts.ymd := by
    unfold msPerDay at *
    omega
  have htime : tp % msPerDay = ts.hours * 3600000 + ts.minutes * 60000 + ts.seconds * 1000 +
      ts.milliseconds := by
    unfold msPerDay at *
    omega
  obtain ⟨hymd', hparts, hhours', hminutes', hseconds', hmilliseconds'⟩ :=
    @ofTimePoint_parts tp (by unfold DaysFit; rw [hdays]; exact hrange.fit)
  rw [hdays, hymd] at hymd'
  rw [htime] at hparts
  refine ⟨hdays ▸ hrange, ?_⟩
  generalize Timestamp.ofTimePoint tp = ts' at *
  obtain ⟨ymd, hours, minutes, seconds, milliseconds⟩ := ts
  obtain ⟨ymd', hours', minutes', seconds', milliseconds'⟩ := ts'
  rw [Timestamp.mk.injEq]
  dsimp only at *
  refine ⟨hymd', ?_⟩
  omega

/-- A second before the epoch. -/
example : Timestamp.ofTimePoint (-1000) = ⟨⟨1969, 12, 31⟩, 23, 59, 59, 0⟩ := by decide

end Acatl.Dates

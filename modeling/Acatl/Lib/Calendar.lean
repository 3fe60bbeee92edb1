/-
Acatl.Lib.Calendar — the days of the Gregorian calendar, numbered.

A year is taken to start in March, so that the leap day is its last one and the
months before have the same days in all years.

  `Date`, `Date.Ok`     a year, a month and a day, and when there is such a day.
  `number`, `ofNumber`  the days since January 1, 1970, and back.
  `weekday`             from 0 for Sunday on.
  `addMonths`           the same day of another month, or the last one if that has
                        no such day.

`ofNumber` goes through the periods of 400, 100 and 4 years, and it is the inverse
of `number` (`number_ofNumber`, `ofNumber_number`).
-/
import Mathlib.Tactic.Common
import Mathlib.Tactic.IntervalCases

namespace Acatl.Lib.Calendar

/-! ## §1 Dates -/

/-- One in leap years, zero in the others. -/
def leapDay (y : Int) : Int := if y % 4 = 0 ∧ (y % 100 ≠ 0 ∨ y % 400 = 0) then 1 else 0

/-- The last day of a month. -/
def lastDay (y m : Int) : Int :=
  if m = 2 then 28 + leapDay y else if m = 4 ∨ m = 6 ∨ m = 9 ∨ m = 11 then 30 else 31

/-- A year, a month and a day. -/
structure Date where
  year : Int
  month : Int
  day : Int
  deriving DecidableEq

namespace Date

/-- There is such a day. -/
structure Ok (d : Date) : Prop where
  month : 1 ≤ d.month ∧ d.month ≤ 12
  day : 1 ≤ d.day ∧ d.day ≤ lastDay d.year d.month

theorem ok_iff (d : Date) :
    d.Ok ↔ (1 ≤ d.month ∧ d.month ≤ 12) ∧ 1 ≤ d.day ∧ d.day ≤ lastDay d.year d.month :=
  ⟨fun h => ⟨h.month, h.day⟩, fun h => ⟨h.1, h.2⟩⟩

instance (d : Date) : Decidable d.Ok := decidable_of_iff _ d.ok_iff.symm

/-- The year and the month of a date, and the date, where the year starts in
March with month 0. -/
def marchYear (d : Date) : Int := if d.month ≤ 2 then d.year - 1 else d.year
def marchMonth (d : Date) : Int := if d.month ≤ 2 then d.month + 9 else d.month - 3
def ofMarch (y m day : Int) : Date := if m < 10 then ⟨y, m + 3, day⟩ else ⟨y + 1, m - 9, day⟩

end Date

/-- The days before the year `y`, up to a constant. -/
def yearStart (y : Int) : Int := 365 * y + y / 4 - y / 100 + y / 400

/-- The days of a year before its month `m`. -/
def monthStart (m : Int) : Int := (153 * m + 2) / 5

/-- The days of the month `m`: those of the last one end with the year. -/
def marchDays (y m : Int) : Int := min (monthStart (m + 1)) (365 + leapDay (y + 1)) - monthStart m

/-- The year that a day is in. -/
def yearOf (z : Int) : Int :=
  let century := min (z % 146097 / 36524) 3
  let rest := z % 146097 - 36524 * century
  400 * (z / 146097) + 100 * century + 4 * (rest / 1461) + min (rest % 1461 / 365) 3

/-- The month that a day of a year is in. -/
def monthOf (day : Int) : Int := (5 * day + 2) / 153

/-- January 1, 1970, in days since March 1 of the year 0. -/
def epoch : Int := 719468

/-- The days since January 1, 1970. -/
def number (d : Date) : Int :=
  yearStart d.marchYear + monthStart d.marchMonth + (d.day - 1) - epoch

/-- The date of a day. -/
def ofNumber (n : Int) : Date :=
  let z := n + epoch
  let y := yearOf z
  let m := monthOf (z - yearStart y)
  .ofMarch y m (z - yearStart y - monthStart m + 1)

/-- The day of the week, from Sunday on. January 1, 1970 was a Thursday. -/
def weekday (n : Int) : Int := (n + 4) % 7

/-- The date so many months later. -/
def addMonths (d : Date) (n : Int) : Date :=
  let months := 12 * d.year + (d.month - 1) + n
  let year := months / 12
  let month := months % 12 + 1
  ⟨year, month, min d.day (lastDay year month)⟩

/-! ## §2 Years and months that start in March -/

theorem leapDay_bounds (y : Int) : 0 ≤ leapDay y ∧ leapDay y ≤ 1 := by
  unfold leapDay
  split <;> decide

theorem lastDay_bounds (y m : Int) : 28 ≤ lastDay y m ∧ lastDay y m ≤ 31 := by
  have hleap := leapDay_bounds y
  unfold lastDay
  split
  · omega
  · split <;> decide

theorem yearStart_succ (y : Int) : yearStart (y + 1) = yearStart y + 365 + leapDay (y + 1) := by
  unfold yearStart leapDay
  split <;> omega

theorem yearStart_mono {y y' : Int} (h : y ≤ y') : yearStart y ≤ yearStart y' := by
  unfold yearStart
  omega

/-- A day is in its year. -/
theorem yearOf_bounds (z : Int) : yearStart (yearOf z) ≤ z ∧ z < yearStart (yearOf z + 1) := by
  unfold yearOf
  dsimp only
  -- the days that are left at each division; the last century and the last year can be
  -- longer than the others
  have hz : z = 146097 * (z / 146097) + z % 146097 := by omega
  have hperiod : 0 ≤ z % 146097 ∧ z % 146097 < 146097 := by omega
  generalize z / 146097 = era at *
  generalize z % 146097 = days at *
  have hcentury : 0 ≤ min (days / 36524) 3 ∧ min (days / 36524) 3 ≤ 3 ∧
      36524 * min (days / 36524) 3 ≤ days ∧
      (days < 36524 * (min (days / 36524) 3 + 1) ∨ min (days / 36524) 3 = 3) := by omega
  generalize min (days / 36524) 3 = century at *
  have hrest : 0 ≤ days - 36524 * century ∧ days - 36524 * century ≤ 36524 ∧
      (days - 36524 * century = 36524 → century = 3) := by omega
  have hdays : days = 36524 * century + (days - 36524 * century) := by omega
  generalize days - 36524 * century = rest at *
  have hfour : rest = 1461 * (rest / 1461) + rest % 1461 := by omega
  have hyears : 0 ≤ rest / 1461 ∧ rest / 1461 ≤ 24 ∧ 0 ≤ rest % 1461 ∧ rest % 1461 < 1461 := by
    omega
  generalize rest / 1461 = four at *
  generalize rest % 1461 = last at *
  have hone : 0 ≤ min (last / 365) 3 ∧ min (last / 365) 3 ≤ 3 ∧ 365 * min (last / 365) 3 ≤ last ∧
      (last < 365 * (min (last / 365) 3 + 1) ∨ (min (last / 365) 3 = 3 ∧ last = 1460)) := by omega
  generalize min (last / 365) 3 = one at *
  have hstart : yearStart (400 * era + 100 * century + 4 * four + one) =
      146097 * era + 36524 * century + 1461 * four + 365 * one := by
    have hfours : (400 * era + 100 * century + 4 * four + one) / 4 =
        100 * era + 25 * century + four := by omega
    have hcenturies : (400 * era + 100 * century + 4 * four + one) / 100 = 4 * era + century := by
      omega
    have heras : (400 * era + 100 * century + 4 * four + one) / 400 = era := by omega
    unfold yearStart
    omega
  refine ⟨by omega, ?_⟩
  rw [yearStart_succ, hstart]
  unfold leapDay
  split <;> omega

theorem yearOf_eq {y z : Int} (hlow : yearStart y ≤ z) (hhigh : z < yearStart (y + 1)) :
    yearOf z = y := by
  obtain ⟨hlow', hhigh'⟩ := yearOf_bounds z
  rcases Int.lt_trichotomy (yearOf z) y with hless | heq | hmore
  · have hmono := yearStart_mono (Int.add_one_le_of_lt hless)
    omega
  · exact heq
  · have hmono := yearStart_mono (Int.add_one_le_of_lt hmore)
    omega

/-- A day is in its month. -/
theorem monthOf_bounds {day : Int} (h : 0 ≤ day ∧ day ≤ 365) :
    (0 ≤ monthOf day ∧ monthOf day ≤ 11) ∧ monthStart (monthOf day) ≤ day ∧
      day < monthStart (monthOf day + 1) := by
  unfold monthStart monthOf
  omega

theorem monthOf_eq {day m : Int} (hlow : monthStart m ≤ day) (hhigh : day < monthStart (m + 1)) :
    monthOf day = m := by
  unfold monthStart at hlow hhigh
  unfold monthOf
  omega

namespace Date

/-- Counting from March and back. -/
theorem march_ofMarch (y day : Int) {m : Int} (h : 0 ≤ m ∧ m ≤ 11) :
    (ofMarch y m day).marchYear = y ∧ (ofMarch y m day).marchMonth = m ∧
      (ofMarch y m day).day = day := by
  unfold ofMarch marchYear marchMonth
  split
  · dsimp only
    rw [if_neg (by omega), if_neg (by omega)]
    omega
  · dsimp only
    rw [if_pos (by omega), if_pos (by omega)]
    omega

theorem ofMarch_march {d : Date} (h : 1 ≤ d.month ∧ d.month ≤ 12) :
    ofMarch d.marchYear d.marchMonth d.day = d ∧ 0 ≤ d.marchMonth ∧ d.marchMonth ≤ 11 := by
  obtain ⟨year, month, day⟩ := d
  unfold ofMarch marchYear marchMonth
  dsimp only at *
  by_cases hless : month ≤ 2
  · rw [if_pos hless, if_pos hless, if_neg (by omega), Date.mk.injEq]
    omega
  · rw [if_neg hless, if_neg hless, if_pos (by omega), Date.mk.injEq]
    omega

theorem lastDay_ofMarch (y day : Int) {m : Int} (h : 0 ≤ m ∧ m ≤ 11) :
    lastDay (ofMarch y m day).year (ofMarch y m day).month = marchDays y m := by
  have hleap := leapDay_bounds (y + 1)
  obtain ⟨hlow, hhigh⟩ := h
  unfold ofMarch lastDay marchDays monthStart
  interval_cases m <;> simp <;> omega

theorem ofMarch_ok_iff {y m day : Int} (h : 0 ≤ m ∧ m ≤ 11) :
    (ofMarch y m day).Ok ↔ 1 ≤ day ∧ day ≤ marchDays y m := by
  have hmonth : 1 ≤ (ofMarch y m day).month ∧ (ofMarch y m day).month ≤ 12 := by
    unfold ofMarch
    split <;> dsimp only <;> omega
  rw [ok_iff, lastDay_ofMarch y day h, (march_ofMarch y day h).2.2, and_iff_right hmonth]

end Date

/-! ## §3 Dates and numbers -/

/-- The number of a date, counted from March. -/
theorem number_ofMarch (y day : Int) {m : Int} (h : 0 ≤ m ∧ m ≤ 11) :
    number (.ofMarch y m day) = yearStart y + monthStart m + (day - 1) - epoch := by
  obtain ⟨hy, hm, hday⟩ := Date.march_ofMarch y day h
  rw [number, hy, hm, hday]

/-- What `ofNumber` finds, for a day of the year `y`. -/
theorem ofNumber_bounds (n : Int) : ∃ y m day, ofNumber n = .ofMarch y m day ∧
    (0 ≤ m ∧ m ≤ 11) ∧ (1 ≤ day ∧ day ≤ marchDays y m) ∧
    yearStart y + monthStart m + (day - 1) = n + epoch := by
  obtain ⟨hlow, hhigh⟩ := yearOf_bounds (n + epoch)
  rw [yearStart_succ] at hhigh
  have hleap := leapDay_bounds (yearOf (n + epoch) + 1)
  obtain ⟨hm, hstart, hend⟩ :=
    @monthOf_bounds (n + epoch - yearStart (yearOf (n + epoch))) (by omega)
  refine ⟨_, _, _, rfl, hm, ?_, by omega⟩
  unfold marchDays
  omega

theorem ofNumber_ok (n : Int) : (ofNumber n).Ok := by
  obtain ⟨y, m, day, hdate, hm, hday, -⟩ := ofNumber_bounds n
  rw [hdate, Date.ofMarch_ok_iff hm]
  exact hday

/-- **Every day has a date**, -/
theorem number_ofNumber (n : Int) : number (ofNumber n) = n := by
  obtain ⟨y, m, day, hdate, hm, -, hn⟩ := ofNumber_bounds n
  rw [hdate, number_ofMarch y day hm, hn, Int.add_sub_cancel]

/-- **and every date is the date of its day.** -/
theorem ofNumber_number {d : Date} (h : d.Ok) : ofNumber (number d) = d := by
  obtain ⟨hdate, hm⟩ := Date.ofMarch_march h.month
  rw [← hdate, Date.ofMarch_ok_iff hm] at h
  rw [← hdate, number_ofMarch _ _ hm]
  generalize d.marchYear = y at *
  generalize d.marchMonth = m at *
  generalize d.day = day at *
  obtain ⟨hfirst, hlast⟩ := h
  rw [marchDays] at hlast
  have hleap := leapDay_bounds (y + 1)
  have hmonth : 0 ≤ monthStart m := by
    unfold monthStart
    omega
  have hyear : yearOf (yearStart y + monthStart m + (day - 1)) = y := by
    refine yearOf_eq (by omega) ?_
    rw [yearStart_succ]
    omega
  unfold ofNumber
  dsimp only
  rw [Int.sub_add_cancel, hyear, monthOf_eq (m := m) (by omega) (by omega)]
  congr 1
  omega

theorem number_inj {d e : Date} (hd : d.Ok) (he : e.Ok) : number d = number e ↔ d = e := by
  refine ⟨fun h => ?_, fun h => h ▸ rfl⟩
  rw [← ofNumber_number hd, h, ofNumber_number he]

/-- The days of a month are numbered one behind the other. -/
theorem number_add (y m day k : Int) : number ⟨y, m, day + k⟩ = number ⟨y, m, day⟩ + k := by
  unfold number Date.marchYear Date.marchMonth
  dsimp only
  omega

theorem ofNumber_add {d : Date} (hm : 1 ≤ d.month ∧ d.month ≤ 12) {k : Int}
    (hk : 1 ≤ d.day + k ∧ d.day + k ≤ lastDay d.year d.month) :
    ofNumber (number d + k) = { d with day := d.day + k } := by
  rw [← number_add]
  exact ofNumber_number ⟨hm, hk⟩

/-- Behind the last day of a month comes the first one of the next. -/
theorem number_nextMonth {y m : Int} (hm : 1 ≤ m ∧ m ≤ 12) :
    number (if m = 12 then ⟨y + 1, 1, 1⟩ else ⟨y, m + 1, 1⟩) =
      number ⟨y, m, 1⟩ + lastDay y m := by
  obtain ⟨hlow, hhigh⟩ := hm
  have hyear := yearStart_succ (y - 1)
  rw [Int.sub_add_cancel] at hyear
  unfold number Date.marchYear Date.marchMonth monthStart lastDay
  interval_cases m <;> simp <;> omega

theorem firstDay_ok {y m : Int} (hm : 1 ≤ m ∧ m ≤ 12) : Date.Ok ⟨y, m, 1⟩ :=
  ⟨hm, le_rfl, (show (1 : Int) ≤ 28 by decide).trans (lastDay_bounds y m).1⟩

theorem ofNumber_nextMonth {y m : Int} (hm : 1 ≤ m ∧ m ≤ 12) :
    ofNumber (number ⟨y, m, 1⟩ + lastDay y m) =
      if m = 12 then ⟨y + 1, 1, 1⟩ else ⟨y, m + 1, 1⟩ := by
  rw [← number_nextMonth hm]
  refine ofNumber_number ?_
  split
  · exact firstDay_ok (by decide)
  · exact firstDay_ok (by omega)

/-- A date is in its year. -/
theorem year_bounds {d : Date} (h : d.Ok) :
    number ⟨d.year, 1, 1⟩ ≤ number d ∧ number d < number ⟨d.year + 1, 1, 1⟩ := by
  obtain ⟨⟨hlow, hhigh⟩, hday⟩ := h
  obtain ⟨year, month, day⟩ := d
  dsimp only at hlow hhigh hday
  have hyear := yearStart_succ (year - 1)
  rw [Int.sub_add_cancel] at hyear
  have hleap := leapDay_bounds year
  unfold lastDay at hday
  unfold number Date.marchYear Date.marchMonth monthStart
  interval_cases month <;> simp at hday ⊢ <;> omega

theorem number_newYear (y : Int) :
    number ⟨y + 1, 1, 1⟩ = number ⟨y, 1, 1⟩ + 365 + leapDay y := by
  have hyear := yearStart_succ (y - 1)
  rw [Int.sub_add_cancel] at hyear
  unfold number Date.marchYear Date.marchMonth
  simp
  omega

theorem newYear_mono {y y' : Int} (h : y ≤ y') : number ⟨y, 1, 1⟩ ≤ number ⟨y', 1, 1⟩ := by
  have hmono := yearStart_mono (Int.sub_le_sub_right h 1)
  unfold number Date.marchYear Date.marchMonth
  simp
  omega

theorem year_eq {d : Date} (h : d.Ok) {y : Int} (hlow : number ⟨y, 1, 1⟩ ≤ number d)
    (hhigh : number d < number ⟨y + 1, 1, 1⟩) : d.year = y := by
  obtain ⟨hlow', hhigh'⟩ := year_bounds h
  rcases Int.lt_trichotomy d.year y with hless | heq | hmore
  · have hmono := newYear_mono (Int.add_one_le_of_lt hless)
    omega
  · exact heq
  · have hmono := newYear_mono (Int.add_one_le_of_lt hmore)
    omega

/-! ## §4 The week -/

theorem weekday_bounds (n : Int) : 0 ≤ weekday n ∧ weekday n ≤ 6 := by
  unfold weekday
  omega

/-- The next day is the next one of the week. -/
theorem weekday_succ (n : Int) :
    weekday (n + 1) = if weekday n = 6 then 0 else weekday n + 1 := by
  unfold weekday
  split <;> omega

/-! ## §5 Months -/

theorem addMonths_ok {d : Date} (h : d.Ok) (n : Int) : (addMonths d n).Ok := by
  have hfirst : 1 ≤ min d.day (lastDay (addMonths d n).year (addMonths d n).month) :=
    Int.le_min.mpr ⟨h.day.1, le_trans (by decide) (lastDay_bounds ..).1⟩
  refine ⟨?_, hfirst, Int.min_le_right ..⟩
  unfold addMonths
  dsimp only
  omega

/-- Months that are added in two steps. -/
theorem addMonths_split (d : Date) (m n : Int) : addMonths (addMonths d m) n =
    ⟨(addMonths d (m + n)).year, (addMonths d (m + n)).month, min (addMonths d m).day
      (lastDay (addMonths d (m + n)).year (addMonths d (m + n)).month)⟩ := by
  have hmonths : 12 * (addMonths d m).year + ((addMonths d m).month - 1) + n =
      12 * d.year + (d.month - 1) + (m + n) := by
    unfold addMonths
    dsimp only
    omega
  rw [addMonths, hmonths]
  rfl

/-- They lead to the same date, unless the first month has no such day and the
second one is longer. -/
theorem addMonths_addMonths {d : Date} (m n : Int) :
    addMonths (addMonths d m) n = addMonths d (m + n) ↔
      d.day ≤ lastDay (addMonths d m).year (addMonths d m).month ∨
        lastDay (addMonths d (m + n)).year (addMonths d (m + n)).month ≤
          lastDay (addMonths d m).year (addMonths d m).month := by
  have hday : addMonths (addMonths d m) n = addMonths d (m + n) ↔
      min (min d.day (lastDay (addMonths d m).year (addMonths d m).month))
          (lastDay (addMonths d (m + n)).year (addMonths d (m + n)).month) =
        min d.day (lastDay (addMonths d (m + n)).year (addMonths d (m + n)).month) := by
    rw [addMonths_split]
    exact ⟨fun h => congrArg Date.day h, fun h => congrArg (Date.mk _ _) h⟩
  rw [hday]
  omega

end Acatl.Lib.Calendar

/-
Acatl.Lib.Computus — Easter in the Gregorian calendar.

  `easter`         the algorithm of Meeus, Jones and Butcher.
  `dayNumber`, `IsSunday`
                   the days of March, numbered through the years; a day behind the
                   last one of March is a day of April.
  `paschalMoon`    the full moon, in days from March 21, for a century constant: with
                   that of 1900 to 2199 it is what shorter algorithms take.
  `sundayAfter`    the first Sunday behind a day, the same for the days of a `week`.

Easter is the first Sunday behind the full moon (`easter_eq`): the last correction
of the algorithm is made when the full moon that is not corrected lies on the
Sunday before.
-/
import Mathlib.Tactic.Common

namespace Acatl.Lib.Computus

/-! ## §1 Easter -/

/-- Month and day. -/
def easter (y : Int) : Int × Int :=
  let a := y % 19
  let b := y / 100
  let c := y % 100
  let d := b / 4
  let e := b % 4
  let f := (b + 8) / 25
  let g := (b - f + 1) / 3
  let h := (19 * a + b - d - g + 15) % 30
  let i := c / 4
  let k := c % 4
  let l := (32 + 2 * e + 2 * i - h - k) % 7
  let m := (a + 11 * h + 22 * l) / 451
  let month := (h + l - 7 * m + 114) / 31
  let day := (h + l - 7 * m + 114) % 31 + 1
  (month, day)

/-- The day of March as month and day. -/
def marchDate (day : Int) : Int × Int := if day ≤ 31 then (3, day) else (4, day - 31)

/-- The number of a day of March, up to a constant. -/
def dayNumber (y day : Int) : Int := 365 * y + y / 4 - y / 100 + y / 400 + day

/-- March 5 of the year 2000 was one. -/
def IsSunday (y day : Int) : Prop := dayNumber y day % 7 = 5

/-- The first Sunday behind a day of March. -/
def sundayAfter (y day : Int) : Int := day + 7 - (dayNumber y day + 2) % 7

/-- What the century adds to the epact: the leap days left out, and the correction of
the lunar cycle. -/
def centuryConstant (y : Int) : Int :=
  let b := y / 100
  b - b / 4 - (b - (b + 8) / 25 + 1) / 3 + 15

/-- The week, from Sunday to Saturday, that a day is in. -/
def week (y day : Int) : Int := (dayNumber y day + 2) / 7

/-- The full moon, in days from March 21: two of the thirty values are never reached,
the second only late in the cycle. -/
def paschalMoon (y constant : Int) : Int :=
  let a := y % 19
  let h := (19 * a + constant) % 30
  if h = 29 ∨ h = 28 ∧ 10 < a then h - 1 else h

/-! ## §2 Sundays -/

theorem sundayAfter_isSunday (y day : Int) : IsSunday y (sundayAfter y day) := by
  rw [IsSunday, sundayAfter, dayNumber, dayNumber]
  omega

theorem sundayAfter_bounds (y day : Int) :
    day < sundayAfter y day ∧ sundayAfter y day ≤ day + 7 := by
  rw [sundayAfter]
  omega

/-- A day that is no Sunday has the Sunday behind it in common with the day before. -/
theorem sundayAfter_pred {y day : Int} (h : ¬ IsSunday y day) :
    sundayAfter y (day - 1) = sundayAfter y day := by
  rw [IsSunday, dayNumber] at h
  rw [sundayAfter, sundayAfter, dayNumber, dayNumber]
  omega

/-- Days of one week have the same Sunday behind them. -/
theorem sundayAfter_eq_iff (y day day' : Int) :
    sundayAfter y day = sundayAfter y day' ↔ week y day = week y day' := by
  rw [sundayAfter, sundayAfter, week, week, dayNumber, dayNumber]
  omega

theorem paschalMoon_bounds (y constant : Int) :
    0 ≤ paschalMoon y constant ∧ paschalMoon y constant ≤ 28 := by
  simp only [paschalMoon]
  split <;> omega

/-! ## §3 The algorithm -/

/-- The days from behind the full moon to the Sunday. -/
theorem days_to_sunday (y h : Int) :
    (32 + 2 * (y / 100 % 4) + 2 * (y % 100 / 4) - h - y % 100 % 4) % 7 =
      6 - (dayNumber y (21 + h) + 2) % 7 := by
  have hquarter : y / 4 = 25 * (y / 100) + y % 100 / 4 := by omega
  have hfour : y / 400 = y / 100 / 4 := by omega
  have hy : y = 400 * (y / 400) + 100 * (y / 100 % 4) + 4 * (y % 100 / 4) + y % 100 % 4 := by omega
  have hcentury : y / 100 = 4 * (y / 400) + y / 100 % 4 := by omega
  rw [dayNumber]
  omega

/-- The last correction: a full moon that comes a day too late matters on a Sunday. -/
theorem correction_eq {a h l : Int} (ha : 0 ≤ a ∧ a < 19) (hh : 0 ≤ h ∧ h < 30)
    (hl : 0 ≤ l ∧ l < 7) :
    (a + 11 * h + 22 * l) / 451 = if (h = 29 ∨ h = 28 ∧ 10 < a) ∧ l = 6 then 1 else 0 := by
  split <;> omega

theorem monthDay_eq {x : Int} (h : 0 ≤ x ∧ x ≤ 34) :
    ((x + 114) / 31, (x + 114) % 31 + 1) = marchDate (22 + x) := by
  rw [marchDate]
  split <;> exact Prod.ext (by dsimp only; omega) (by dsimp only; omega)

/-- **Easter is the first Sunday behind the full moon.** -/
theorem easter_eq (y : Int) :
    easter y = marchDate (sundayAfter y (21 + paschalMoon y (centuryConstant y))) := by
  have hbounds := paschalMoon_bounds y (centuryConstant y)
  have hsunday := sundayAfter_bounds y (21 + paschalMoon y (centuryConstant y))
  suffices hoffset : ∃ x, easter y = ((x + 114) / 31, (x + 114) % 31 + 1) ∧
      22 + x = sundayAfter y (21 + paschalMoon y (centuryConstant y)) by
    obtain ⟨x, heaster, hx⟩ := hoffset
    rw [heaster, ← hx]
    exact monthDay_eq (by omega)
  refine ⟨_, rfl, ?_⟩
  have hconstant : 19 * (y % 19) + y / 100 - y / 100 / 4 -
      (y / 100 - (y / 100 + 8) / 25 + 1) / 3 + 15 = 19 * (y % 19) + centuryConstant y := by
    simp only [centuryConstant]
    omega
  rw [hconstant, days_to_sunday, correction_eq (by omega) (by omega) (by omega)]
  simp only [paschalMoon]
  generalize (19 * (y % 19) + centuryConstant y) % 30 = h
  by_cases hlate : h = 29 ∨ h = 28 ∧ 10 < y % 19
  · rw [if_pos hlate]
    by_cases hlast : 6 - (dayNumber y (21 + h) + 2) % 7 = 6
    · -- the day that is not corrected is a Sunday, the one before it is not
      rw [if_pos ⟨hlate, hlast⟩]
      rw [dayNumber] at hlast
      rw [sundayAfter, dayNumber, dayNumber]
      omega
    · have hno : ¬ IsSunday y (21 + h) := by
        rw [IsSunday]
        omega
      have hpred : 21 + (h - 1) = 21 + h - 1 := by omega
      rw [if_neg fun hboth => hlast hboth.2, hpred, sundayAfter_pred hno, sundayAfter]
      omega
  · rw [if_neg hlate, if_neg fun hboth => hlate hboth.1, sundayAfter]
    omega

theorem easter_isSunday (y : Int) :
    ∃ day, easter y = marchDate day ∧ IsSunday y day ∧ 22 ≤ day ∧ day ≤ 56 := by
  have hbounds := paschalMoon_bounds y (centuryConstant y)
  have hsunday := sundayAfter_bounds y (21 + paschalMoon y (centuryConstant y))
  exact ⟨_, easter_eq y, sundayAfter_isSunday .., by omega, by omega⟩

theorem marchDate_injective {d d' : Int} (h : marchDate d = marchDate d') : d = d' := by
  rw [marchDate, marchDate] at h
  split at h <;> split at h <;> simp only [Prod.mk.injEq] at h <;> omega

end Acatl.Lib.Computus

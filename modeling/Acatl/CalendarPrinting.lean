/-
Acatl.CalendarPrinting — the months that `examples/calendar` prints.

`printWeek` prints a line of a month, day by day from a date that the next call
goes on with, and tells whether there is another line. In a year three months
stand beside each other, and the ones that are shorter go on with blank lines.

  §1  `printWeek` and its callers;
  §2  the table of a month: `cell` and `row`;
  §3  `printWeek_line`: one call prints one row;
  §4  `month_printed`, `year_printed`;
  §5  `holidays_marked`: the holidays of the year in which the program is run.

The lines with the names of the months and of the weekdays are left out.
-/
import Acatl.DateHelper
import Acatl.Dates
import Mathlib.Data.List.Basic

namespace Acatl.CalendarPrinting

open Lib.Calendar Dates

/-! ## §1 Printing -/

/-- A line of text. -/
abbrev Line := List Char

/-- `std::setw(width) << " "`. -/
def blanks (width : Int) : Line := List.replicate (max width 1).toNat ' '

/-- `std::cout << date.day()`. -/
def dayText (day : Int) : Line :=
  let digit (d : Int) : Char := Char.ofNat (48 + d.toNat)
  [digit (day / 10), digit (day % 10)]

/-- `_showHolidays` and `_holidays` of `Calendar`. -/
structure Settings where
  showHolidays : Bool
  holidays : List (String × Date)

namespace Settings

variable (c : Settings)

/-- `isHoliday`. -/
def isHoliday (date : Date) : Bool := c.holidays.any fun holiday => holiday.2 = date

/-- `printDay`. -/
def printDay (date : Date) : Line :=
  if c.showHolidays && c.isHoliday date then '[' :: dayText date.day ++ [']']
  else blanks 1 ++ dayText date.day ++ blanks 1

/-- `printStartOffset`. -/
def printStartOffset (weekday : Int) : Line :=
  let offset := weekday * 4
  if offset ≠ 0 then blanks offset else []

/-- The date behind another one. -/
def nextDay (date : Date) : Date := yearMonthDay (addDays (number date) 1)

/-- What a call prints, what it returns, and the date it leaves. -/
structure Printed where
  text : Line
  more : Bool
  date : Date
  deriving DecidableEq

/-- The loop of `printWeek`, with its last line, behind the text that was printed
before. -/
def printDays (month : Int) : Nat → Line → Date → Option Printed
  | 0, _, _ => none
  | fuel + 1, text, date =>
    if weekday (number date) ≠ 6 then
      let date := nextDay date
      if date.month ≠ month then
        some ⟨text ++ blanks ((6 - weekday (number date)) * 4 + 4), false, date⟩
      else
        printDays month fuel (text ++ c.printDay date) date
    else
      let date := nextDay date
      some ⟨text, date.month = month, date⟩

/-- `printWeek`. -/
def printWeek (month : Int) (date : Date) : Option Printed :=
  if date.month ≠ month then
    some ⟨blanks 28, false, date⟩
  else
    let text := if date.day = 1 then printStartOffset (weekday (number date)) else []
    c.printDays month 7 (text ++ c.printDay date) date

/-- The loop of `printSingleMonth`. -/
def printMonth : Nat → Date → Option (List Line)
  | 0, _ => none
  | fuel + 1, date => do
    let week ← c.printWeek date.month date
    if week.more then
      let lines ← printMonth fuel week.date
      return week.text :: lines
    else
      return [week.text]

/-- The loop of `printThreeMonthWeeks`. -/
def printThreeMonthWeeks (month month' month'' : Int) : Nat → Date → Date → Date →
    Option (List Line)
  | 0, _, _, _ => none
  | fuel + 1, date, date', date'' => do
    let week ← c.printWeek month date
    let week' ← c.printWeek month' date'
    let week'' ← c.printWeek month'' date''
    let line := week.text ++ [' '] ++ week'.text ++ [' '] ++ week''.text
    if week.more || week'.more || week''.more then
      let lines ← printThreeMonthWeeks month month' month'' fuel week.date week'.date week''.date
      return line :: lines
    else
      return [line]

/-- `printYear`, without the lines with the names of months: `months` are those of
the year, each with the date to go on with. -/
def printYear (currentDate : Date) : Option (List (List Line)) :=
  let date : Date := ⟨currentDate.year, 1, 1⟩
  let months (index : Int) : Int × Date := (index + 1, plusMonths date index)
  [0, 3, 6, 9].mapM fun startMonthIndex =>
    c.printThreeMonthWeeks (months startMonthIndex).1 (months (startMonthIndex + 1)).1
      (months (startMonthIndex + 2)).1 6 (months startMonthIndex).2
      (months (startMonthIndex + 1)).2 (months (startMonthIndex + 2)).2

end Settings

/-! ## §2 The table of a month -/

/-- A month behind which there is another one. -/
structure Month where
  year : Int
  month : Int
  inYear : 1 ≤ month ∧ month ≤ 12
  inRange : -32767 ≤ year ∧ year < 32767

namespace Month

variable (m : Month) (c : Settings)

/-- A date of the month. -/
def date (day : Int) : Date := ⟨m.year, m.month, day⟩

/-- The weekday of the first day. -/
def offset : Int := weekday (number (m.date 1))

/-- The number of its days. -/
def days : Int := lastDay m.year m.month

/-- The first day of the next month. -/
def next : Date := if m.month = 12 then ⟨m.year + 1, 1, 1⟩ else ⟨m.year, m.month + 1, 1⟩

/-- What stands at a place of the table, from the Sunday before the first day on. -/
def cell (i : Int) : Line :=
  let day := i - m.offset + 1
  if 1 ≤ day ∧ day ≤ m.days then c.printDay (m.date day) else blanks 4

/-- Some cells, from a place on. -/
def cells (i : Int) (n : Nat) : Line := (List.range n).flatMap fun k : Nat => m.cell c (i + k)

/-- All days of the month, behind the blanks before the first one, and the blanks
up to the end of so many weeks. -/
def table (weeks : Nat) : Line :=
  List.replicate (4 * m.offset).toNat ' ' ++
    (List.range m.days.toNat).flatMap (fun k : Nat => c.printDay (m.date (k + 1))) ++
    List.replicate (4 * (7 * weeks - m.offset - m.days)).toNat ' '

/-- The lines show the month: all of its days, the first one in the column of its
weekday and seven in a line. -/
structure Shown (lines : List Line) : Prop where
  width : ∀ line ∈ lines, line.length = 28
  text : lines.flatten = m.table c lines.length

/-- A week, from Sunday to Saturday. -/
def row (r : Nat) : Line := m.cells c (7 * r) 7

/-- The number of weeks. -/
def rows : Nat := ((m.offset + m.days + 6) / 7).toNat

/-- The date at which a row starts. -/
def start (r : Nat) : Date :=
  if r < m.rows then m.date (max 1 (7 * r - m.offset + 1)) else m.next

end Month

/-! ## §3 A line -/

namespace Month

variable (m : Month) (c : Settings)

theorem offset_bounds : 0 ≤ m.offset ∧ m.offset ≤ 6 := weekday_bounds _

theorem days_bounds : 28 ≤ m.days ∧ m.days ≤ 31 := lastDay_bounds ..

theorem number_date (day : Int) : number (m.date day) = number (m.date 1) + (day - 1) := by
  have hday : 1 + (day - 1) = day := by omega
  rw [date, date, ← number_add, hday]

theorem number_next : number m.next = number (m.date 1) + m.days := number_nextMonth m.inYear

theorem weekday_date (day : Int) : weekday (number (m.date day)) = (m.offset + day - 1) % 7 := by
  rw [number_date, offset, weekday, weekday]
  omega

theorem weekday_next : weekday (number m.next) = (m.offset + m.days) % 7 := by
  rw [number_next, offset, weekday, weekday]
  omega

theorem date_ok {day : Int} (h : 1 ≤ day ∧ day ≤ m.days) : ok (m.date day) :=
  ⟨⟨m.inRange.1, m.inRange.2.le⟩, m.inYear, h⟩

theorem next_ok : ok m.next := by
  obtain ⟨hlow, hhigh⟩ := m.inRange
  have hmonth := m.inYear
  unfold next
  split
  · exact ⟨⟨by dsimp only; omega, by dsimp only; omega⟩, firstDay_ok (by decide)⟩
  · exact ⟨⟨hlow, hhigh.le⟩, firstDay_ok (by omega)⟩

theorem next_month : m.next.month ≠ m.month := by
  have hmonth := m.inYear
  unfold next
  split
  · dsimp only
    omega
  · dsimp only
    omega

/-- The day behind a day of the month. -/
theorem nextDay_date {day : Int} (h : 1 ≤ day ∧ day ≤ m.days) :
    Settings.nextDay (m.date day) = if day < m.days then m.date (day + 1) else m.next := by
  unfold Settings.nextDay addDays
  split
  · rename_i hless
    have hnumber : number (m.date day) + 1 = number (m.date (day + 1)) := by
      rw [number_date, number_date m (day + 1)]
      omega
    rw [hnumber]
    exact (yearMonthDay_number (m.date_ok (by omega))).1
  · rename_i hlast
    have hnumber : number (m.date day) + 1 = number m.next := by
      rw [number_date, number_next]
      omega
    rw [hnumber]
    exact (yearMonthDay_number m.next_ok).1

/-- Cells one behind the other. -/
theorem cells_add (i : Int) (n k : Nat) :
    m.cells c i (n + k) = m.cells c i n ++ m.cells c (i + n) k := by
  unfold cells
  rw [List.range_add, List.flatMap_append, List.flatMap_map]
  congr 1
  refine List.flatMap_congr fun l _ => ?_
  rw [Int.add_assoc, Int.natCast_add]

theorem cells_one (i : Int) : m.cells c i 1 = m.cell c i := by
  simp [cells]

/-- Places before the first day and behind the last one. -/
theorem cells_blank {i : Int} {n : Nat} (h : i + n ≤ m.offset ∨ m.offset + m.days ≤ i) :
    m.cells c i n = List.replicate (4 * n) ' ' := by
  induction n with
  | zero => rfl
  | succ n ih =>
    rw [cells_add, ih (by omega), cells_one, cell, if_neg (by omega), Nat.mul_succ,
      List.replicate_add]
    rfl

theorem blanks_eq {n : Nat} (h : 1 ≤ n) : blanks (n * 4) = List.replicate (4 * n) ' ' := by
  unfold blanks
  congr 1
  omega

/-- One pass of the loop, on a day of the month. -/
theorem printDays_date {day : Int} (h : 1 ≤ day ∧ day ≤ m.days) (fuel : Nat) (text : Line) :
    c.printDays m.month (fuel + 1) text (m.date day) =
      if (m.offset + day - 1) % 7 ≠ 6 then
        if day < m.days then
          c.printDays m.month fuel (text ++ c.printDay (m.date (day + 1))) (m.date (day + 1))
        else some ⟨text ++ blanks ((6 - (m.offset + m.days) % 7) * 4 + 4), false, m.next⟩
      else some ⟨text, day < m.days, if day < m.days then m.date (day + 1) else m.next⟩ := by
  have hsame : (m.date (day + 1)).month = m.month := rfl
  rw [Settings.printDays, weekday_date]
  dsimp only
  rw [nextDay_date m h]
  by_cases hless : day < m.days
  · simp [hless, hsame]
  · simp [hless, m.next_month, weekday_next]

/-- **The loop of `printWeek`** prints what is left of the week. -/
theorem printDays_cells {day : Int} (hday : 1 ≤ day ∧ day ≤ m.days) {left : Nat}
    (hleft : (m.offset + day - 1) % 7 + left = 6) {fuel : Nat} (hfuel : left < fuel) (text : Line) :
    c.printDays m.month fuel text (m.date day) =
      some ⟨text ++ m.cells c (m.offset + day) left, day + left < m.days,
        if day + left < m.days then m.date (day + left + 1) else m.next⟩ := by
  induction left generalizing day fuel text with
  | zero =>
    obtain ⟨fuel, rfl⟩ := Nat.exists_eq_succ_of_ne_zero hfuel.ne'
    rw [printDays_date m c hday, if_neg (by omega)]
    simp [cells]
  | succ left ih =>
    obtain ⟨fuel, rfl⟩ := Nat.exists_eq_succ_of_ne_zero (Nat.ne_of_gt (Nat.zero_lt_of_lt hfuel))
    rw [printDays_date m c hday, if_pos (by omega)]
    by_cases hless : day < m.days
    · have hcell : m.cells c (m.offset + day) (left + 1) =
          c.printDay (m.date (day + 1)) ++ m.cells c (m.offset + (day + 1)) left := by
        rw [Nat.add_comm, cells_add, cells_one, cell, if_pos (by omega), Int.add_assoc]
        congr 3
        omega
      have hday' : day + 1 + left = day + (left + 1 : Nat) := by omega
      rw [if_pos hless, ih ⟨by omega, by omega⟩ (by omega) (by omega), hcell, List.append_assoc,
        hday']
    · -- the month ends here, and blanks are left
      have hblank : blanks ((6 - (m.offset + m.days) % 7) * 4 + 4) =
          m.cells c (m.offset + day) (left + 1) := by
        rw [cells_blank m c (by omega), ← blanks_eq (by omega)]
        congr 1
        omega
      have hlast : ¬ day + (left + 1 : Nat) < m.days := by omega
      rw [if_neg hless, hblank]
      simp only [hlast, decide_false, if_false]

theorem lt_rows_iff (r : Nat) : r < m.rows ↔ 7 * (r : Int) < m.offset + m.days := by
  have hoffset := m.offset_bounds
  have hdays := m.days_bounds
  unfold rows
  omega

/-- A row from its first day on, behind the blanks that stand before it. -/
theorem row_eq {r : Nat} {day : Int} (hday : 1 ≤ day ∧ day ≤ m.days) {before left : Nat}
    (hbefore : 7 * (r : Int) + before = m.offset + day - 1) (hleft : before + 1 + left = 7) :
    m.row c r = m.cells c (7 * r) before ++ c.printDay (m.date day) ++
      m.cells c (m.offset + day) left := by
  have hplace : 7 * (r : Int) + (before + 1 : Nat) = m.offset + day := by omega
  have hcell : m.cell c (7 * (r : Int) + before) = c.printDay (m.date day) := by
    rw [cell, if_pos (by omega)]
    congr 2
    omega
  rw [row, ← hleft, cells_add, cells_add, cells_one, hplace, hcell]

/-- The blanks before the first day. -/
theorem start_offset {r : Nat} {day : Int} (h : max 1 (7 * (r : Int) - m.offset + 1) = day) :
    (if (m.date day).day = 1 then
        Settings.printStartOffset (weekday (number (m.date day))) else []) =
      m.cells c (7 * r) (m.offset + day - 1 - 7 * r).toNat := by
  have hoffset := m.offset_bounds
  change (if day = 1 then _ else _) = _
  by_cases hday : day = 1
  · subst hday
    obtain rfl : r = 0 := by omega
    rw [if_pos rfl, cells_blank m c (by omega)]
    show Settings.printStartOffset m.offset = _
    unfold Settings.printStartOffset
    dsimp only
    split
    · rw [← blanks_eq (by omega)]
      congr 1
      omega
    · have hnone : (m.offset + 1 - 1 - 7 * (0 : Nat)).toNat = 0 := by omega
      rw [hnone]
      rfl
  · have hnone : (m.offset + day - 1 - 7 * (r : Int)).toNat = 0 := by omega
    rw [if_neg hday, hnone]
    rfl

/-- **One call of `printWeek` prints one row.** -/
theorem printWeek_line (r : Nat) :
    c.printWeek m.month (m.start r) = some ⟨m.row c r, r + 1 < m.rows, m.start (r + 1)⟩ := by
  have hoffset := m.offset_bounds
  have hdays := m.days_bounds
  unfold Settings.printWeek
  by_cases hr : r < m.rows
  · have hbehind := (m.lt_rows_iff r).mp hr
    have hstart : m.start r = m.date (max 1 (7 * r - m.offset + 1)) := if_pos hr
    generalize hday : max 1 (7 * (r : Int) - m.offset + 1) = day at hstart
    rw [hstart, if_neg (by simp [date])]
    dsimp only
    obtain ⟨left, hleft⟩ : ∃ left : Nat, (m.offset + day - 1) % 7 + left = 6 :=
      ⟨(6 - (m.offset + day - 1) % 7).toNat, by omega⟩
    rw [printDays_cells m c (by omega) hleft (by omega)]
    have hmore : day + left < m.days ↔ r + 1 < m.rows := by
      rw [lt_rows_iff]
      omega
    have hnext : (if day + left < m.days then m.date (day + left + 1) else m.next) =
        m.start (r + 1) := by
      unfold start
      rw [if_congr hmore rfl rfl]
      split
      · congr 1
        omega
      · rfl
    have htext : (if (m.date day).day = 1 then
        Settings.printStartOffset (weekday (number (m.date day))) else []) =
          m.cells c (7 * r) (m.offset + day - 1 - 7 * r).toNat :=
      m.start_offset c hday
    rw [hnext, htext, @row_eq m c r day (by omega) (m.offset + day - 1 - 7 * r).toNat left
      (by omega) (by omega)]
    simp only [hmore]
  · have hstart : ∀ k, r ≤ k → m.start k = m.next := by
      intro k hk
      exact if_neg (by omega)
    have hlast : ¬ r + 1 < m.rows := by omega
    have hbehind := mt (m.lt_rows_iff r).mpr hr
    rw [hstart r le_rfl, hstart (r + 1) (Nat.le_succ r), if_pos m.next_month, row,
      cells_blank m c (by omega)]
    simp only [hlast, decide_false]
    rfl

theorem start_zero : m.start 0 = m.date 1 := by
  have hoffset := m.offset_bounds
  have hdays := m.days_bounds
  rw [start, if_pos ((m.lt_rows_iff 0).mpr (by omega))]
  congr 1
  omega

theorem rows_bounds : 4 ≤ m.rows ∧ m.rows ≤ 6 := by
  have hoffset := m.offset_bounds
  have hdays := m.days_bounds
  unfold rows
  omega

theorem length_printDay (date : Date) : (c.printDay date).length = 4 := by
  unfold Settings.printDay
  split <;> rfl

theorem length_cells (i : Int) (n : Nat) : (m.cells c i n).length = 4 * n := by
  induction n with
  | zero => rfl
  | succ n ih =>
    have hcell : (m.cell c (i + n)).length = 4 := by
      unfold cell
      dsimp only
      split
      · exact length_printDay c _
      · rfl
    rw [cells_add, cells_one, List.length_append, ih, hcell, Nat.mul_succ]

/-- Cells with days of the month. -/
theorem cells_days {n : Nat} (h : n ≤ m.days) : m.cells c m.offset n =
    (List.range n).flatMap fun k : Nat => c.printDay (m.date (k + 1)) := by
  refine List.flatMap_congr fun k hk => ?_
  have hlast := List.mem_range.mp hk
  rw [cell, if_pos (by omega)]
  congr 2
  omega

theorem cells_table {weeks : Nat} (h : m.rows ≤ weeks) :
    m.cells c 0 (7 * weeks) = m.table c weeks := by
  have hoffset := m.offset_bounds
  have hdays := m.days_bounds
  have hlast := mt (m.lt_rows_iff weeks).mpr (by omega)
  have hsplit : 7 * weeks =
      m.offset.toNat + m.days.toNat + (7 * weeks - m.offset - m.days).toNat := by omega
  have hfirst : (0 : Int) + (m.offset.toNat : Nat) = m.offset := by omega
  rw [hsplit, cells_add, cells_add, hfirst, cells_days m c (by omega),
    cells_blank m c (by omega), cells_blank m c (by omega), table]
  congr 3 <;> omega

/-- So many rows of the table. -/
theorem shown_rows {weeks : Nat} (h : m.rows ≤ weeks) :
    m.Shown c ((List.range weeks).map (m.row c)) := by
  refine ⟨?_, ?_⟩
  · intro line hline
    obtain ⟨r, -, rfl⟩ := List.mem_map.mp hline
    exact length_cells m c _ 7
  · rw [List.length_map, List.length_range, ← cells_table m c h]
    clear h
    induction weeks with
    | zero => rfl
    | succ weeks ih =>
      rw [List.range_succ, List.map_append, List.flatten_append, ih, Nat.mul_succ, cells_add]
      simp [row]

end Month

/-! ## §4 Months -/

open Month

/-- The rows of a month, from one on. -/
theorem printMonth_rows (m : Month) (c : Settings) {r : Nat} (hr : r < m.rows) {fuel : Nat}
    (hfuel : m.rows ≤ r + fuel) :
    c.printMonth fuel (m.start r) = some ((List.range' r (m.rows - r)).map (m.row c)) := by
  induction fuel generalizing r with
  | zero => omega
  | succ fuel ih =>
    have hmonth : (m.start r).month = m.month := by
      rw [start, if_pos hr]
      rfl
    rw [Settings.printMonth, hmonth, printWeek_line]
    have hrange : List.range' r (m.rows - r) = r :: List.range' (r + 1) (m.rows - (r + 1)) := by
      rw [← List.range'_succ]
      congr 1
      omega
    rw [hrange]
    by_cases hmore : r + 1 < m.rows
    · simp [hmore, ih hmore (by omega)]
    · have hnone : m.rows - (r + 1) = 0 := by omega
      simp [hmore, hnone]

/-- A line of three months side by side. -/
def rowsBeside (m m' m'' : Month) (c : Settings) (r : Nat) : Line :=
  m.row c r ++ [' '] ++ m'.row c r ++ [' '] ++ m''.row c r

theorem printThreeMonthWeeks_rows (m m' m'' : Month) (c : Settings) {r : Nat}
    (hr : r < max m.rows (max m'.rows m''.rows)) {fuel : Nat}
    (hfuel : max m.rows (max m'.rows m''.rows) ≤ r + fuel) :
    c.printThreeMonthWeeks m.month m'.month m''.month fuel (m.start r) (m'.start r) (m''.start r) =
      some ((List.range' r (max m.rows (max m'.rows m''.rows) - r)).map
        (rowsBeside m m' m'' c)) := by
  generalize hrows : max m.rows (max m'.rows m''.rows) = rows at *
  induction fuel generalizing r with
  | zero => omega
  | succ fuel ih =>
    rw [Settings.printThreeMonthWeeks, printWeek_line, printWeek_line, printWeek_line]
    have hrange : List.range' r (rows - r) = r :: List.range' (r + 1) (rows - (r + 1)) := by
      rw [← List.range'_succ]
      congr 1
      omega
    have hgoesOn : (decide (r + 1 < m.rows) || decide (r + 1 < m'.rows) ||
        decide (r + 1 < m''.rows)) = decide (r + 1 < rows) := by
      rw [← Bool.decide_or, ← Bool.decide_or, decide_eq_decide]
      omega
    rw [hrange]
    simp only [Option.bind_eq_bind, Option.bind_some, hgoesOn]
    by_cases hmore : r + 1 < rows
    · simp [hmore, ih hmore (by omega), rowsBeside]
    · have hnone : rows - (r + 1) = 0 := by omega
      simp [hmore, hnone, rowsBeside]

/-- Three months side by side. -/
def beside (lines lines' lines'' : List Line) : List Line :=
  (lines.zip (lines'.zip lines'')).map fun line =>
    line.1 ++ [' '] ++ line.2.1 ++ [' '] ++ line.2.2

/-- `printThreeMonthWeeks` ends with the longest month. -/
theorem threeMonths_shown (m m' m'' : Month) (c : Settings) : ∃ lines lines' lines'',
    c.printThreeMonthWeeks m.month m'.month m''.month 6 (m.date 1) (m'.date 1) (m''.date 1) =
      some (beside lines lines' lines'') ∧
    m.Shown c lines ∧ m'.Shown c lines' ∧ m''.Shown c lines'' ∧
    lines.length = max m.rows (max m'.rows m''.rows) ∧ lines'.length = lines.length ∧
    lines''.length = lines.length := by
  have hrows := m.rows_bounds
  have hrows' := m'.rows_bounds
  have hrows'' := m''.rows_bounds
  refine ⟨_, _, _, ?_, @shown_rows m c (max m.rows (max m'.rows m''.rows)) (by omega),
    @shown_rows m' c (max m.rows (max m'.rows m''.rows)) (by omega),
    @shown_rows m'' c (max m.rows (max m'.rows m''.rows)) (by omega), by simp, by simp, by simp⟩
  rw [← start_zero, ← start_zero, ← start_zero,
    printThreeMonthWeeks_rows m m' m'' c (by omega) (by omega), Nat.sub_zero,
    ← List.range_eq_range', beside, List.zip_map', List.zip_map', List.map_map]
  rfl

/-- The months of a year, three by three, each group in the lines of its longest
month. -/
structure YearShown (c : Settings) (y : Int) (printed : List (List Line)) : Prop where
  shown : ∃ months : Int → List Line, (∀ m : Month, m.year = y → m.Shown c (months m.month)) ∧
    (∀ first ∈ [1, 4, 7, 10], (months (first + 1)).length = (months first).length ∧
      (months (first + 2)).length = (months first).length) ∧
    printed = [1, 4, 7, 10].map fun first =>
      beside (months first) (months (first + 1)) (months (first + 2))

/-- The first days of the months that `printYear` counts. -/
theorem plusMonths_index (m : Month) {index : Int} (h : index = m.month - 1) :
    plusMonths ⟨m.year, 1, 1⟩ index = m.date 1 := by
  have hmonth := m.inYear
  have hyear := m.inRange
  have hsame : toYear (m.year + 0) = m.year := by
    rw [Int.add_zero]
    exact (toYear_eq_iff _).mpr ⟨by omega, by omega⟩
  have hzero : (1 - 1 + index) / 12 = 0 := by omega
  unfold plusMonths
  dsimp only
  rw [hzero, hsame, date, Date.mk.injEq]
  omega

/-- The three months from an index on. -/
theorem quarter_shown {y : Int} (hy : -32767 ≤ y ∧ y < 32767) (c : Settings) (index : Int)
    (h : 0 ≤ index ∧ index ≤ 9) : ∃ lines lines' lines'',
    c.printThreeMonthWeeks (index + 1) (index + 1 + 1) (index + 2 + 1) 6
        (plusMonths ⟨y, 1, 1⟩ index) (plusMonths ⟨y, 1, 1⟩ (index + 1))
        (plusMonths ⟨y, 1, 1⟩ (index + 2)) = some (beside lines lines' lines'') ∧
    (⟨y, index + 1, by omega, hy⟩ : Month).Shown c lines ∧
    (⟨y, index + 2, by omega, hy⟩ : Month).Shown c lines' ∧
    (⟨y, index + 3, by omega, hy⟩ : Month).Shown c lines'' ∧
    lines'.length = lines.length ∧ lines''.length = lines.length := by
  obtain ⟨lines, lines', lines'', hprinted, hshown, hshown', hshown'', -, hlengths⟩ :=
    threeMonths_shown ⟨y, index + 1, by omega, hy⟩ ⟨y, index + 2, by omega, hy⟩
      ⟨y, index + 3, by omega, hy⟩ c
  refine ⟨lines, lines', lines'', ?_, hshown, hshown', hshown'', hlengths⟩
  have hsecond : index + 1 + 1 = index + 2 := by omega
  have hthird : index + 2 + 1 = index + 3 := by omega
  rw [plusMonths_index ⟨y, index + 1, by omega, hy⟩ (by dsimp only; omega),
    plusMonths_index ⟨y, index + 2, by omega, hy⟩ (by dsimp only; omega),
    plusMonths_index ⟨y, index + 3, by omega, hy⟩ (by dsimp only; omega), hsecond, hthird]
  exact hprinted

/-- `year / month / Sunday[last]`. -/
def lastSunday (year month : Int) : Date :=
  let last := number ⟨year, month, lastDay year month⟩
  yearMonthDay (last - weekday last)

/-- `calculateHolidays`, up to the order. -/
def calculateHolidays (year : Int) : List (String × Date) :=
  let (month, day) := DateHelper.calculateGregorianEaster year
  let easter := number ⟨year, month, day⟩
  [("Neujahr", ⟨year, 1, 1⟩),
    ("Heilige Drei Koenige", ⟨year, 1, 6⟩),
    ("Erster Mai", ⟨year, 5, 1⟩),
    ("Mariae Himmelfahrt", ⟨year, 8, 15⟩),
    ("Tag der deutschen Einheit", ⟨year, 10, 3⟩),
    ("Reformationstag", ⟨year, 10, 31⟩),
    ("Allerheiligen", ⟨year, 11, 11⟩),
    ("Erster Weihnachtstag", ⟨year, 12, 25⟩),
    ("Zweiter Weihnachtstag", ⟨year, 12, 26⟩),
    ("Rosenmontag", yearMonthDay (addDays easter (-48))),
    ("Fastnacht", yearMonthDay (addDays easter (-47))),
    ("Aschermittwoch", yearMonthDay (addDays easter (-46))),
    ("Palmsonntag", yearMonthDay (addDays easter (-7))),
    ("Karfreitag", yearMonthDay (addDays easter (-2))),
    ("Ostersonntag", yearMonthDay easter),
    ("Ostermontag", yearMonthDay (addDays easter 1)),
    ("Christi Himmelfahrt", yearMonthDay (addDays easter 39)),
    ("Pfingstsonntag", yearMonthDay (addDays easter 49)),
    ("Pfingstmontag", yearMonthDay (addDays easter 50)),
    ("Fronleichnam", yearMonthDay (addDays easter 60)),
    ("Sommerzeit-Umstellung", lastSunday year 3),
    ("Winterzeit-Umstellung", lastSunday year 10)]

/-- The calendar that is started on the day `today`, with the option `holidays`:
`_holidays` is set by the constructor, before the options are read. `std::sort` is
not stable. -/
def settings (sort : List (String × Date) → List (String × Date)) (today : Date)
    (holidays : Bool) : Settings :=
  ⟨holidays, sort (calculateHolidays today.year)⟩

/-- The days of March, and those of April behind them. -/
theorem number_marchDate (y day : Int) :
    number ⟨y, (Lib.Computus.marchDate day).1, (Lib.Computus.marchDate day).2⟩ =
      number ⟨y, 3, 1⟩ + (day - 1) := by
  unfold Lib.Computus.marchDate number Date.marchYear Date.marchMonth monthStart
  split <;> simp <;> omega

/-- Easter in days from March 1. -/
theorem easter_bounds (year : DateHelper.GregorianYear) :
    let date := DateHelper.calculateGregorianEaster year.y
    number ⟨year.y, 3, 1⟩ + 21 ≤ number ⟨year.y, date.1, date.2⟩ ∧
      number ⟨year.y, date.1, date.2⟩ ≤ number ⟨year.y, 3, 1⟩ + 55 := by
  have hmoon := Lib.Computus.paschalMoon_bounds year.y 24
  rw [DateHelper.calculate_eq]
  generalize Lib.Computus.paschalMoon year.y 24 = moon at hmoon
  dsimp only
  rw [number_marchDate]
  omega

theorem number_march (y : Int) : number ⟨y, 3, 1⟩ = number ⟨y, 1, 1⟩ + 59 + leapDay y := by
  have hyear := yearStart_succ (y - 1)
  rw [Int.sub_add_cancel] at hyear
  unfold number Date.marchYear Date.marchMonth monthStart
  simp
  omega

/-- A day of a year is given that year. -/
theorem yearMonthDay_year {y d : Int} (hy : -32767 ≤ y ∧ y ≤ 32767)
    (h : number ⟨y, 1, 1⟩ ≤ d ∧ d < number ⟨y + 1, 1, 1⟩) : (yearMonthDay d).year = y := by
  have hyear : (ofNumber d).year = y := by
    refine year_eq (ofNumber_ok d) ?_ ?_ <;> rw [number_ofNumber]
    · exact h.1
    · exact h.2
  have hrange : InRange d := by
    unfold InRange
    rw [hyear]
    exact hy
  rw [(number_yearMonthDay hrange).1, hyear]

theorem lastSunday_year {y month : Int} (hy : -32767 ≤ y ∧ y ≤ 32767)
    (hmonth : 1 ≤ month ∧ month ≤ 12) : (lastSunday y month).year = y := by
  have hlast := lastDay_bounds y month
  have hweekday := weekday_bounds (number ⟨y, month, lastDay y month⟩)
  have hok : Date.Ok ⟨y, month, lastDay y month⟩ := ⟨hmonth, by dsimp only; omega, le_rfl⟩
  have hfirst := (year_bounds (firstDay_ok (y := y) hmonth)).1
  have hbefore : number ⟨y, month, 1⟩ + (lastDay y month - 1) =
      number ⟨y, month, lastDay y month⟩ := by
    rw [← number_add]
    congr 2
    omega
  have hbehind := (year_bounds hok).2
  dsimp only at hfirst hbehind
  exact yearMonthDay_year hy ⟨by omega, by omega⟩

/-- **All holidays are days of the year.** -/
theorem calculateHolidays_year (year : DateHelper.GregorianYear) :
    ∀ holiday ∈ calculateHolidays year.y, holiday.2.year = year.y := by
  have hy : -32767 ≤ year.y ∧ year.y ≤ 32767 := ⟨by have := year.gregorian; omega, year.admitted⟩
  obtain ⟨hlow, hhigh⟩ := easter_bounds year
  have hmarch := number_march year.y
  have hnext := number_newYear year.y
  have hleap := leapDay_bounds year.y
  have hmoving : ∀ k, -48 ≤ k ∧ k ≤ 60 → (yearMonthDay (addDays
      (number ⟨year.y, (DateHelper.calculateGregorianEaster year.y).1,
        (DateHelper.calculateGregorianEaster year.y).2⟩) k)).year = year.y := by
    intro k hk
    unfold addDays
    exact yearMonthDay_year hy ⟨by omega, by omega⟩
  have heaster := hmoving 0 (by decide)
  rw [addDays, Int.add_zero] at heaster
  simp only [calculateHolidays, List.forall_mem_cons, true_and]
  exact ⟨hmoving _ (by decide), hmoving _ (by decide),
    hmoving _ (by decide), hmoving _ (by decide), hmoving _ (by decide), heaster,
    hmoving _ (by decide), hmoving _ (by decide), hmoving _ (by decide), hmoving _ (by decide),
    hmoving _ (by decide), lastSunday_year hy (by decide), lastSunday_year hy (by decide), by simp⟩

/-- The digits of a day. -/
theorem bracket_not_mem_dayText {day : Int} (h : 1 ≤ day ∧ day ≤ 31) : '[' ∉ dayText day := by
  obtain ⟨hlow, hhigh⟩ := h
  interval_cases day <;> decide

end Acatl.CalendarPrinting

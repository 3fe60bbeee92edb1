/-
Acatl.OptionConverter — the conversion of option values to integers
(`command_line_options.h`).

A specialisation casts what a function of the standard library has read. The
functions refuse what does not fit in THEIR type, and those for unsigned types
take a sign and wrap; so a number comes out wrong when it does not fit in the
target but is read (`converts_iff`).
-/
import Acatl.Lib.CInteger
import Acatl.StringHelper

namespace Acatl.OptionConverter

open Lib.CInteger Lib.CInteger.Platform

/-! ## §1 The standard library -/

/-- `std::invalid_argument` and `std::out_of_range`. -/
inductive Failure where
  | invalidArgument
  | outOfRange
  deriving DecidableEq

def digitValue (c : UInt8) : Option Nat := if 48 ≤ c ∧ c ≤ 57 then some (c.toNat - 48) else none

/-- The digits at the front, as a number, and how many there are. -/
def readDigits (acc count : Nat) : Text → Nat × Nat
  | [] => (acc, count)
  | c :: rest =>
    match digitValue c with
    | some digit => readDigits (acc * 10 + digit) (count + 1) rest
    | none => (acc, count)

/-- White space, a sign, and digits: whether there is a minus, and the number. -/
def scan (s : Text) : Option (Bool × Nat) :=
  let s := s.dropWhile StringHelper.isSpace
  let negative : Bool := s.head? = some 45
  let s := if s.head? = some 43 ∨ s.head? = some 45 then s.tail else s
  match readDigits 0 0 s with
  | (_, 0) => none
  | (value, _ + 1) => some (negative, value)

def applySign (negative : Bool) (value : Nat) : Int := if negative then -value else value

/-- `std::stol`. -/
def stol (s : Text) : Except Failure Int :=
  match scan s with
  | none => .error .invalidArgument
  | some (negative, value) =>
    if lp64.InRange long (applySign negative value) then .ok (applySign negative value)
    else .error .outOfRange

/-- `std::stoi`, which reads a `long`. -/
def stoi (s : Text) : Except Failure Int := do
  let value ← stol s
  if lp64.InRange lp64.int value then return value else throw .outOfRange

/-- What an unsigned type makes of the digits and the sign: the digits have to fit,
and the sign is applied in the type. -/
def stounsigned (T : IntType) (s : Text) : Except Failure Int :=
  match scan s with
  | none => .error .invalidArgument
  | some (negative, value) =>
    if (value : Int) ≤ lp64.max T then .ok (lp64.wrap T (applySign negative value))
    else .error .outOfRange

/-- `std::stoul`. -/
def stoul : Text → Except Failure Int := stounsigned unsignedLong

/-- `std::stoull`. -/
def stoull : Text → Except Failure Int := stounsigned unsignedLongLong

/-! ## §2 The specialisations -/

/-- The types that `OptionConverter` is specialised for. -/
inductive Target where
  | uint8
  | uint16
  | uint32
  | uint64
  | int8
  | int16
  | int32
  | int64
  deriving DecidableEq

def Target.type : Target → IntType
  | .uint8 => { rank := 0, signed := false }
  | .uint16 => { rank := 1, signed := false }
  | .uint32 => { rank := 2, signed := false }
  | .uint64 => { rank := 3, signed := false }
  | .int8 => { rank := 0, signed := true }
  | .int16 => { rank := 1, signed := true }
  | .int32 => { rank := 2, signed := true }
  | .int64 => { rank := 3, signed := true }

/-- `static_cast<T>(read(s))`. -/
def castRead (read : Text → Except Failure Int) (T : IntType) (s : Text) :
    Except Failure (lp64.Value T) := do
  let value ← read s
  return lp64.cast T value

/-- `OptionConverter<T>::convert`. -/
def convert : (T : Target) → Text → Except Failure (lp64.Value T.type)
  | .uint8 => castRead stoul _
  | .uint16 => castRead stoul _
  | .uint32 => castRead stoul _
  | .uint64 => castRead stoul _
  | .int8 => castRead stoi _
  | .int16 => castRead stoi _
  | .int32 => castRead stol _
  | .int64 => castRead stoull _

/-! ## §3 Numerals -/

/-- An optional sign and decimal digits. -/
structure Numeral where
  sign : Option Bool
  digits : List (Fin 10)

/-- The sign of a numeral; `true` is the minus. -/
def signText : Option Bool → Text
  | none => []
  | some false => [43]
  | some true => [45]

def digitText (d : Fin 10) : UInt8 := UInt8.ofNat (48 + d.val)

def Numeral.text (s : Numeral) : Text := signText s.sign ++ s.digits.map digitText

def magnitude (digits : List (Fin 10)) : Nat := digits.foldl (fun acc d => acc * 10 + d.val) 0

/-- The number that a numeral denotes. -/
def Numeral.value (s : Numeral) : Int :=
  if s.sign = some true then -(magnitude s.digits : Int) else magnitude s.digits

theorem digitValue_digitText (d : Fin 10) : digitValue (digitText d) = some d.val := by
  decide +revert

theorem isSpace_digitText (d : Fin 10) : StringHelper.isSpace (digitText d) = false := by
  decide +revert

theorem digitText_ne (d : Fin 10) : digitText d ≠ 43 ∧ digitText d ≠ 45 := by
  decide +revert

/-- The digits are read to the end. -/
theorem readDigits_text : ∀ (digits : List (Fin 10)) (acc count : Nat),
    readDigits acc count (digits.map digitText) =
      (digits.foldl (fun acc d => acc * 10 + d.val) acc, count + digits.length)
  | [], _, _ => rfl
  | d :: ds, acc, count => by
    rw [List.map_cons, readDigits, digitValue_digitText]
    dsimp only
    rw [readDigits_text ds, List.foldl_cons, List.length_cons, Nat.add_right_comm, Nat.add_assoc]

/-- There is no white space in front of the sign or the digits, and the sign is
cut off. -/
theorem scan_text (s : Numeral) :
    scan s.text = if s.digits = [] then none else
      some (decide (s.sign = some true), magnitude s.digits) := by
  obtain ⟨sign, digits⟩ := s
  have hread := readDigits_text digits 0 0
  rw [Nat.zero_add] at hread
  have hminus : StringHelper.isSpace 45 = false := by decide
  have hplus : StringHelper.isSpace 43 = false := by decide
  rw [scan, Numeral.text]
  cases sign with
  | none =>
    cases digits with
    | nil => rfl
    | cons d ds =>
      obtain ⟨hne, hne'⟩ := digitText_ne d
      rw [List.map_cons] at hread
      simp [signText, isSpace_digitText, hne, hne', hread, magnitude]
  | some negative =>
    cases negative with
    | false =>
      cases digits with
      | nil => rfl
      | cons d ds =>
        rw [List.map_cons] at hread
        simp [signText, hplus, hread, magnitude]
    | true =>
      cases digits with
      | nil => rfl
      | cons d ds =>
        rw [List.map_cons] at hread
        simp [signText, hminus, hread, magnitude]

theorem applySign_eq (s : Numeral) :
    applySign (decide (s.sign = some true)) (magnitude s.digits) = s.value := by
  simp [applySign, Numeral.value]

theorem natAbs_value (s : Numeral) : s.value.natAbs = magnitude s.digits := by
  rw [Numeral.value]
  split <;> simp

/-! ## §4 What the library reads -/

/-- A function that reads the numerals of certain numbers, up to a multiple of
`2 ^ 64`, and refuses all others. -/
structure Reads (read : Text → Except Failure Int) (accepts : Int → Prop) : Prop where
  none : ∀ s : Numeral, s.digits = [] → read s.text = .error .invalidArgument
  reads : ∀ s : Numeral, s.digits ≠ [] → accepts s.value →
    ∃ v, read s.text = .ok v ∧ v % lp64.count unsignedLong = s.value % lp64.count unsignedLong
  refuses : ∀ s : Numeral, s.digits ≠ [] → ¬ accepts s.value → read s.text = .error .outOfRange

theorem stol_text {s : Numeral} (h : s.digits ≠ []) : stol s.text =
    if lp64.InRange long s.value then .ok s.value else .error .outOfRange := by
  rw [stol, scan_text, if_neg h]
  dsimp only
  rw [applySign_eq]

theorem stol_empty {s : Numeral} (h : s.digits = []) :
    stol s.text = .error .invalidArgument := by
  rw [stol, scan_text, if_pos h]

theorem reads_stol : Reads stol (lp64.InRange long) := by
  refine ⟨fun s h => stol_empty h, fun s h hin => ⟨s.value, ?_, rfl⟩, fun s h hout => ?_⟩
  · rw [stol_text h, if_pos hin]
  · rw [stol_text h, if_neg hout]

/-- Every `int` is a `long`. -/
theorem inRange_long {n : Int} (h : lp64.InRange lp64.int n) : lp64.InRange long n :=
  inRange_of_max_le h (by decide) (.inr ⟨rfl, rfl⟩)

theorem reads_stoi : Reads stoi (lp64.InRange lp64.int) := by
  refine ⟨fun s h => ?_, fun s h hin => ⟨s.value, ?_, rfl⟩, fun s h hout => ?_⟩
  · rw [stoi, stol_empty h]
    rfl
  · rw [stoi, stol_text h, if_pos (inRange_long hin)]
    exact if_pos hin
  · rw [stoi, stol_text h]
    by_cases hlong : lp64.InRange long s.value
    · rw [if_pos hlong]
      exact if_neg hout
    · rw [if_neg hlong]
      rfl

/-- The digits without the sign have to fit. -/
def Fits (n : Int) : Prop := n.natAbs < lp64.count unsignedLong

instance (n : Int) : Decidable (Fits n) := inferInstanceAs (Decidable (_ < _))

theorem reads_stounsigned {T : IntType} (hT : T.signed = false)
    (hcount : lp64.count T = lp64.count unsignedLong) : Reads (stounsigned T) Fits := by
  have hfits : ∀ s : Numeral, (magnitude s.digits : Int) ≤ lp64.max T ↔ Fits s.value := by
    intro s
    rw [Fits, natAbs_value, Platform.max, if_neg (by rw [hT]; decide), hcount]
    omega
  refine ⟨fun s h => ?_, fun s h hin => ⟨lp64.wrap T s.value, ?_, ?_⟩, fun s h hout => ?_⟩
  · rw [stounsigned, scan_text, if_pos h]
  · rw [stounsigned, scan_text, if_neg h]
    dsimp only
    rw [applySign_eq, if_pos ((hfits s).mpr hin)]
  · rw [← hcount, wrap_emod]
  · rw [stounsigned, scan_text, if_neg h]
    dsimp only
    rw [if_neg (mt (hfits s).mp hout)]

/-! ## §5 The specialisations -/

/-- A number that the type holds is returned, and every other string refused. -/
structure Converts {T : IntType} (convert : Text → Except Failure (lp64.Value T))
    (s : Numeral) : Prop where
  exact : s.digits ≠ [] → lp64.InRange T s.value → ∃ v, convert s.text = .ok v ∧ v.1 = s.value
  refused : s.digits = [] ∨ ¬ lp64.InRange T s.value → ∃ e, convert s.text = .error e

theorem castRead_iff {read : Text → Except Failure Int} {accepts : Int → Prop}
    (hread : Reads read accepts) {T : IntType} (hdvd : lp64.count T ∣ lp64.count unsignedLong)
    (haccepts : ∀ n, lp64.InRange T n → accepts n) (s : Numeral) :
    Converts (castRead read T) s ↔
      s.digits = [] ∨ lp64.InRange T s.value ∨ ¬ accepts s.value := by
  by_cases hnil : s.digits = []
  · have herror : castRead read T s.text = .error .invalidArgument := by
      rw [castRead, hread.none s hnil]
      rfl
    exact ⟨fun _ => .inl hnil, fun _ => ⟨fun hne => absurd hnil hne, fun _ => ⟨_, herror⟩⟩⟩
  by_cases hyes : accepts s.value
  · obtain ⟨v, hv, hres⟩ := hread.reads s hnil hyes
    have hok : castRead read T s.text = .ok (lp64.cast T v) := by
      rw [castRead, hv]
      rfl
    by_cases hin : lp64.InRange T s.value
    · have hres' : v % lp64.count T = s.value % lp64.count T := by
        have hdvd' : (lp64.count T : Int) ∣ lp64.count unsignedLong :=
          Int.natCast_dvd_natCast.mpr hdvd
        rw [← Int.emod_emod_of_dvd v hdvd', hres, Int.emod_emod_of_dvd _ hdvd']
      refine ⟨fun _ => .inr (.inl hin), fun _ => ⟨fun _ _ => ⟨_, hok, ?_⟩, fun h => ?_⟩⟩
      · exact wrap_eq_of_emod hres' hin
      · exact absurd (h.resolve_left hnil) (not_not_intro hin)
    · refine ⟨fun h => ?_, fun h => ?_⟩
      · obtain ⟨e, he⟩ := h.refused (.inr hin)
        rw [hok] at he
        cases he
      · obtain h | h | h := h
        · exact absurd h hnil
        · exact absurd h hin
        · exact absurd hyes h
  · have herror : castRead read T s.text = .error .outOfRange := by
      rw [castRead, hread.refuses s hnil hyes]
      rfl
    exact ⟨fun _ => .inr (.inr hyes), fun _ =>
      ⟨fun _ hin => absurd (haccepts _ hin) hyes, fun _ => ⟨_, herror⟩⟩⟩

/-- What the library function of a specialisation reads. -/
def Target.Accepts : Target → Int → Prop
  | .uint8 => Fits
  | .uint16 => Fits
  | .uint32 => Fits
  | .uint64 => Fits
  | .int8 => lp64.InRange lp64.int
  | .int16 => lp64.InRange lp64.int
  | .int32 => lp64.InRange long
  | .int64 => Fits

/-- The specialisation is a cast of what such a function reads. -/
theorem exists_read (T : Target) :
    ∃ read, convert T = castRead read T.type ∧ Reads read T.Accepts := by
  have hul : Reads stoul Fits := reads_stounsigned rfl rfl
  have hull : Reads stoull Fits := reads_stounsigned rfl rfl
  cases T with
  | uint8 => exact ⟨stoul, rfl, hul⟩
  | uint16 => exact ⟨stoul, rfl, hul⟩
  | uint32 => exact ⟨stoul, rfl, hul⟩
  | uint64 => exact ⟨stoul, rfl, hul⟩
  | int8 => exact ⟨stoi, rfl, reads_stoi⟩
  | int16 => exact ⟨stoi, rfl, reads_stoi⟩
  | int32 => exact ⟨stol, rfl, reads_stol⟩
  | int64 => exact ⟨stoull, rfl, hull⟩

theorem fits_of_bounds {n lo hi : Int} (hlo : -lp64.count unsignedLong < lo)
    (hhi : hi < lp64.count unsignedLong) (h : lo ≤ n ∧ n ≤ hi) : Fits n := by
  rw [Fits]
  omega

/-- Whatever fits in the target is read. -/
theorem accepts_of_inRange (T : Target) {n : Int} (h : lp64.InRange T.type n) : T.Accepts n := by
  cases T with
  | uint8 => exact fits_of_bounds (by decide) (by decide) h
  | uint16 => exact fits_of_bounds (by decide) (by decide) h
  | uint32 => exact fits_of_bounds (by decide) (by decide) h
  | uint64 => exact fits_of_bounds (by decide) (by decide) h
  | int8 => exact inRange_of_max_le h (by decide) (.inr ⟨rfl, rfl⟩)
  | int16 => exact inRange_of_max_le h (by decide) (.inr ⟨rfl, rfl⟩)
  | int32 => exact inRange_of_max_le h (by decide) (.inr ⟨rfl, rfl⟩)
  | int64 => exact fits_of_bounds (by decide) (by decide) h

/-- **When an option value is converted or refused.** It fits in the target, or the
library function that reads it refuses it. -/
theorem converts_iff (T : Target) (s : Numeral) :
    Converts (convert T) s ↔
      s.digits = [] ∨ lp64.InRange T.type s.value ∨ ¬ T.Accepts s.value := by
  obtain ⟨read, hconvert, hread⟩ := exists_read T
  have hdvd : lp64.count T.type ∣ lp64.count unsignedLong := by
    refine Nat.pow_dvd_pow 2 ?_
    cases T <;> decide
  rw [hconvert]
  exact castRead_iff hread hdvd (fun n => accepts_of_inRange T) s

/-- 256 is read as an `unsigned long`, and cast to 0. -/
theorem not_always_converts : ¬ ∀ (T : Target) (s : Numeral), Converts (convert T) s := by
  intro h
  obtain ⟨e, he⟩ := (h .uint8 ⟨none, [2, 5, 6]⟩).refused (by decide)
  have hok : convert .uint8 (Numeral.text ⟨none, [2, 5, 6]⟩) = .ok ⟨0, by decide⟩ := rfl
  rw [hok] at he
  cases he

end Acatl.OptionConverter

/-
Acatl.Net.CookieNumbers — the age of a cookie is read by `std::stoul` and narrowed by
`numeric_cast`. The two functions that the cookie parsers have for that are the
general ones, on a platform with a `long` of 64 bits (`stoul_eq`, `numericCast_eq`).
-/
import Acatl.Net.HttpCookie
import Acatl.NumericCast
import Acatl.OptionConverter

namespace Acatl.Net

open Lib.CInteger Lib.CInteger.Platform

/-! ## §1 stoul -/

theorem digitValue_eq (c : UInt8) :
    OptionConverter.digitValue c = if isDigit c then some (c.toNat - 48) else none := by
  simp [OptionConverter.digitValue, isDigit]

/-- The digits at the front, counted and put together. -/
theorem readDigits_eq : ∀ (s : Text) (acc count : Nat),
    OptionConverter.readDigits acc count s =
      ((s.takeWhile isDigit).foldl (fun v c => 10 * v + (c.toNat - 48)) acc,
        count + (s.takeWhile isDigit).length)
  | [], _, _ => rfl
  | c :: cs, acc, count => by
    rw [OptionConverter.readDigits, digitValue_eq]
    by_cases hc : isDigit c = true
    · rw [if_pos hc, List.takeWhile_cons_of_pos hc]
      dsimp only
      rw [readDigits_eq cs, List.foldl_cons, List.length_cons, Nat.mul_comm acc]
      congr 1
      omega
    · rw [if_neg hc, List.takeWhile_cons_of_neg hc]
      rfl

/-- What a sign in front of `value` makes of it, within 64 bits. -/
theorem wrap_applySign {value : Nat} (h : value < UInt64.size) (negative : Bool) :
    (lp64.wrap unsignedLong (OptionConverter.applySign negative value)).toNat =
      if negative then (UInt64.size - value) % UInt64.size else value := by
  have hsize : UInt64.size = 18446744073709551616 := rfl
  have hwrap : ∀ v : Int, lp64.wrap unsignedLong v = v % (UInt64.size : Int) := fun v => rfl
  rw [hwrap, OptionConverter.applySign, hsize]
  rw [hsize] at h
  cases negative with
  | true =>
    rw [if_pos rfl, if_pos rfl]
    omega
  | false =>
    rw [if_neg Bool.false_ne_true, if_neg Bool.false_ne_true]
    omega

/-- The same failures, under other names. -/
def readFailure : OptionConverter.Failure → CookieFailure
  | .invalidArgument => .invalidArgument
  | .outOfRange => .outOfRange

/-- **One `std::stoul`.** -/
theorem stoul_eq (s : Text) :
    stoul s = match OptionConverter.stoul s with
      | .ok value => .ok value.toNat
      | .error e => .error (readFailure e) := by
  simp only [OptionConverter.stoul, OptionConverter.stounsigned, OptionConverter.scan, stoul,
    readDigits_eq, Nat.zero_add]
  generalize s.dropWhile StringHelper.isSpace = s
  generalize (if s.head? = some 43 ∨ s.head? = some 45 then s.tail else s) = left
  generalize (left.takeWhile isDigit).foldl (fun v c => 10 * v + (c.toNat - 48)) 0 = value
  cases hdigits : left.takeWhile isDigit with
  | nil => rfl
  | cons c cs =>
    rw [if_neg (List.cons_ne_nil c cs)]
    simp only [List.length_cons]
    have hmax : lp64.max unsignedLong = (UInt64.size - 1 : Nat) := rfl
    have hpos : 0 < UInt64.size := by decide
    by_cases hlarge : UInt64.size ≤ value
    · rw [if_pos hlarge, if_neg (by omega)]
      rfl
    · have hfits : (value : Int) ≤ lp64.max unsignedLong := by omega
      rw [if_neg hlarge, if_pos hfits]
      dsimp only
      rw [wrap_applySign (Nat.lt_of_not_le hlarge)]
      simp

/-! ## §2 numeric_cast -/

/-- `operator<<` of an `unsigned long`, and the name of `uint32_t`. -/
def print (_ : IntType) (v : Int) : Text := decimal v.toNat
def getTypename (_ : IntType) : Text := Text.ofString "unsigned int"

/-- **One `numeric_cast`.** -/
theorem numericCast_eq (val : lp64.Value unsignedLong) :
    numericCast val.1.toNat =
      match NumericCast.numericCast lp64 print getTypename lp64.unsignedInt val with
      | .ok value => .ok (UInt32.ofNat value.1.toNat)
      | .error e => .error (.badNumericCast e.message) := by
  have hcasts : NumericCast.Casts lp64 print getTypename lp64.unsignedInt val
      (NumericCast.numericCast lp64 print getTypename lp64.unsignedInt val) :=
    NumericCast.castSameSignedness_casts rfl
  have hlow : 0 ≤ val.1 := val.2.1
  have hmax : lp64.max lp64.unsignedInt = (UInt32.size - 1 : Nat) := rfl
  rw [numericCast]
  by_cases hin : lp64.InRange lp64.unsignedInt val.1
  · obtain ⟨result, hresult, hvalue⟩ := hcasts.inside hin
    have hle : val.1 ≤ lp64.max lp64.unsignedInt := hin.2
    rw [hresult, if_neg (by omega)]
    dsimp only
    rw [hvalue]
  · have hlt : ¬ val.1 ≤ lp64.max lp64.unsignedInt := fun hle => hin ⟨hlow, hle⟩
    have htext : Text.ofString " to unsigned int" =
        Text.ofString " to " ++ Text.ofString "unsigned int" := by decide +kernel
    rw [hcasts.outside hin, if_pos (by omega)]
    simp [NumericCast.badNumericCast, print, getTypename, htext]

end Acatl.Net

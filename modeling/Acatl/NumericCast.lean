/-
Acatl.NumericCast — `numeric_cast` between integer types (`numeric_cast.h`).

The overloads compare limits and values of different types with the built-in
operators. No comparison they make converts a negative value to an unsigned type:
the limits that are compared are not negative or both signed, and a negative value
meets the limit of an unsigned type only after the check that this type is the
narrower one (`castToUnsigned_casts`).
-/
import Acatl.Lib.CInteger
import Acatl.Text

namespace Acatl.NumericCast

open Lib.CInteger Lib.CInteger.Platform

/-- `BadNumericCast`. -/
structure BadNumericCast where
  message : Text

/-! ## §1 The overloads -/

section

variable (P : Platform)
-- what `operator<<` writes of a value, and the name of a type at run time
variable (print : IntType → Int → Text) (getTypename : IntType → Text)
variable (T : IntType) {S : IntType}

/-- What is thrown. -/
def badNumericCast (val : P.Value S) : BadNumericCast :=
  ⟨Text.ofString "Value out of target range: " ++ print S val.1 ++ Text.ofString " to " ++
    getTypename T⟩

/-- The check of the upper limit, which three of the overloads begin with. -/
def checkMax (val : P.Value S) : Except BadNumericCast Unit :=
  if P.less T (P.max T) S (P.max S) then
    if P.greater S val.1 T (P.max T) then .error (badNumericCast P print getTypename T val)
    else .ok ()
  else .ok ()

/-- The check of the lower limit. -/
def checkMin (val : P.Value S) : Except BadNumericCast Unit :=
  if P.greater T (P.min T) S (P.min S) then
    if P.less S val.1 T (P.min T) then .error (badNumericCast P print getTypename T val)
    else .ok ()
  else .ok ()

/-- `numeric_cast` of the same signedness. -/
def castSameSignedness (val : P.Value S) : Except BadNumericCast (P.Value T) := do
  checkMax P print getTypename T val
  checkMin P print getTypename T val
  return P.cast T val.1

/-- `std::make_unsigned`. -/
def makeUnsigned (S : IntType) : IntType := { S with signed := false }

/-- `numeric_cast` with the target unsigned and the source signed. -/
def castToUnsigned (val : P.Value S) : Except BadNumericCast (P.Value T) := do
  checkMax P print getTypename T val
  if P.less S val.1 P.int 0 then
    throw (badNumericCast P print getTypename T val)
  if P.less (makeUnsigned S) (P.cast (makeUnsigned S) val.1).1 T (P.min T) then
    throw (badNumericCast P print getTypename T val)
  return P.cast T val.1

/-- `numeric_cast` with the target signed and the source unsigned. -/
def castToSigned (val : P.Value S) : Except BadNumericCast (P.Value T) := do
  checkMax P print getTypename T val
  return P.cast T val.1

/-- `numeric_cast<Target>(val)`, of integral types; a value of the same type is
returned. -/
def numericCast (val : P.Value S) : Except BadNumericCast (P.Value T) :=
  if h : S = T then .ok ⟨val.1, h ▸ val.2⟩
  else if S.signed = T.signed then castSameSignedness P print getTypename T val
  else if S.signed then castToUnsigned P print getTypename T val
  else castToSigned P print getTypename T val

end

/-! ## §2 The checks -/

section

variable {P : Platform} {print : IntType → Int → Text} {getTypename : IntType → Text}
variable {T S : IntType} {val : P.Value S}

theorem max_inRange (T : IntType) : P.InRange T (P.max T) :=
  ⟨Int.le_trans (min_nonpos T) (max_nonneg T), Int.le_refl _⟩

theorem min_inRange (T : IntType) : P.InRange T (P.min T) :=
  ⟨Int.le_refl _, Int.le_trans (min_nonpos T) (max_nonneg T)⟩

variable (print getTypename T val) in
/-- The limits are compared as they are; the value has to be only if the target is
the smaller type. -/
theorem checkMax_eq (h : P.max T < P.max S → P.Exact S val.1 T (P.max T)) :
    checkMax P print getTypename T val =
      if P.max T < val.1 then .error (badNumericCast P print getTypename T val) else .ok () := by
  have hlimits : P.Exact T (P.max T) S (P.max S) :=
    exact_nonneg (max_inRange T) (max_inRange S) (max_nonneg T) (max_nonneg S)
  rw [checkMax]
  by_cases hlt : P.max T < P.max S
  · rw [if_pos (hlimits.less_iff.mpr hlt)]
    exact if_congr (h hlt).greater_iff rfl rfl
  · have hle : ¬ P.max T < val.1 := by
      have hval := val.2.2
      omega
    rw [if_neg (mt hlimits.less_iff.mp hlt), if_neg hle]

variable (print getTypename T val) in
theorem checkMin_eq (hlimits : P.Exact T (P.min T) S (P.min S))
    (hval : P.Exact S val.1 T (P.min T)) :
    checkMin P print getTypename T val =
      if val.1 < P.min T then .error (badNumericCast P print getTypename T val) else .ok () := by
  rw [checkMin]
  by_cases hlt : P.min T > P.min S
  · rw [if_pos (hlimits.greater_iff.mpr hlt)]
    exact if_congr hval.less_iff rfl rfl
  · have hle : ¬ val.1 < P.min T := by
      have hval := val.2.1
      omega
    rw [if_neg (mt hlimits.greater_iff.mp hlt), if_neg hle]

/-! ## §3 The result -/

variable (P print getTypename T val) in
/-- A value in the range of the target comes out as it is, any other is refused. -/
structure Casts (r : Except BadNumericCast (P.Value T)) : Prop where
  inside : P.InRange T val.1 → ∃ result, r = .ok result ∧ result.1 = val.1
  outside : ¬ P.InRange T val.1 → r = .error (badNumericCast P print getTypename T val)

theorem casts_ok (h : P.InRange T val.1) :
    Casts P print getTypename T val (.ok (P.cast T val.1)) :=
  ⟨fun _ => ⟨_, rfl, wrap_eq h⟩, fun hout => absurd h hout⟩

theorem casts_error (h : ¬ P.InRange T val.1) :
    Casts P print getTypename T val (.error (badNumericCast P print getTypename T val)) :=
  ⟨fun hin => absurd hin h, fun _ => rfl⟩

theorem nonneg_of_unsigned {T : IntType} {v : Int} (h : P.InRange T v) (hT : T.signed = false) :
    0 ≤ v := by
  have hlow := h.1
  rwa [min_unsigned hT] at hlow

/-- Values of the same signedness are compared as they are. -/
theorem exact_sameSignedness {A B : IntType} {a b : Int} (h : A.signed = B.signed)
    (ha : P.InRange A a) (hb : P.InRange B b) : P.Exact A a B b := by
  cases hB : B.signed with
  | false =>
    exact exact_nonneg ha hb (nonneg_of_unsigned ha (h.trans hB)) (nonneg_of_unsigned hb hB)
  | true => exact exact_signed ha hb (h.trans hB) hB

theorem castSameSignedness_casts (h : S.signed = T.signed) :
    Casts P print getTypename T val (castSameSignedness P print getTypename T val) := by
  have hmax := checkMax_eq print getTypename T val
    fun _ => exact_sameSignedness h val.2 (max_inRange T)
  have hmin := checkMin_eq print getTypename T val
    (exact_sameSignedness h.symm (min_inRange T) (min_inRange S))
    (exact_sameSignedness h val.2 (min_inRange T))
  rw [castSameSignedness, hmax, hmin]
  by_cases hlarge : P.max T < val.1
  · rw [if_pos hlarge]
    exact casts_error fun hin => absurd hin.2 (Int.not_le.mpr hlarge)
  by_cases hsmall : val.1 < P.min T
  · rw [if_neg hlarge, if_pos hsmall]
    exact casts_error fun hin => absurd hin.1 (Int.not_le.mpr hsmall)
  · rw [if_neg hlarge, if_neg hsmall]
    exact casts_ok ⟨Int.not_lt.mp hsmall, Int.not_lt.mp hlarge⟩

/-- A target with a smaller upper limit is narrower. -/
theorem width_lt_of_max_lt (hS : S.signed = true) (hT : T.signed = false)
    (h : P.max T < P.max S) : P.width T.rank < P.width S.rank := by
  by_contra hle
  have hhalf : P.half S ≤ P.half T :=
    Nat.pow_le_pow_right (by decide) (Nat.sub_le_sub_right (Nat.le_of_not_lt hle) 1)
  have hcount := count_eq (P := P) T
  rw [Platform.max, Platform.max, if_pos hS, if_neg (by rw [hT]; decide)] at h
  omega

theorem castToUnsigned_casts (hS : S.signed = true) (hT : T.signed = false) :
    Casts P print getTypename T val (castToUnsigned P print getTypename T val) := by
  have hmax := checkMax_eq print getTypename T val
    fun h => exact_wider val.2 (max_inRange T) hS hT (width_lt_of_max_lt hS hT h)
  have hzero : P.Exact S val.1 P.int 0 :=
    exact_signed val.2 ⟨min_nonpos _, max_nonneg _⟩ hS rfl
  -- the third check compares an unsigned value with zero
  have hlow : P.Exact (makeUnsigned S) (P.cast (makeUnsigned S) val.1).1 T (P.min T) :=
    exact_sameSignedness hT.symm (P.cast (makeUnsigned S) val.1).2 (min_inRange T)
  have hnever : ¬ (P.cast (makeUnsigned S) val.1).1 < P.min T := by
    rw [min_unsigned hT]
    exact Int.not_lt.mpr (nonneg_of_unsigned (P.cast (makeUnsigned S) val.1).2 rfl)
  rw [castToUnsigned, hmax]
  by_cases hlarge : P.max T < val.1
  · rw [if_pos hlarge]
    exact casts_error fun hin => absurd hin.2 (Int.not_le.mpr hlarge)
  rw [if_neg hlarge]
  by_cases hsmall : val.1 < 0
  · simp only [hzero.less_iff, hsmall, if_true]
    refine casts_error fun hin => ?_
    exact absurd (nonneg_of_unsigned hin hT) (Int.not_le.mpr hsmall)
  · simp only [hzero.less_iff, hlow.less_iff, hsmall, hnever, if_false]
    refine casts_ok ⟨?_, Int.not_lt.mp hlarge⟩
    rw [min_unsigned hT]
    exact Int.not_lt.mp hsmall

theorem castToSigned_casts (hS : S.signed = false) :
    Casts P print getTypename T val (castToSigned P print getTypename T val) := by
  have hval : 0 ≤ val.1 := nonneg_of_unsigned val.2 hS
  have hmax := checkMax_eq print getTypename T val
    fun _ => exact_nonneg val.2 (max_inRange T) hval (max_nonneg T)
  rw [castToSigned, hmax]
  by_cases hlarge : P.max T < val.1
  · rw [if_pos hlarge]
    exact casts_error fun hin => absurd hin.2 (Int.not_le.mpr hlarge)
  · rw [if_neg hlarge]
    exact casts_ok ⟨Int.le_trans (min_nonpos T) hval, Int.not_lt.mp hlarge⟩

end

/-- **`numeric_cast` is exact**, for any widths, and refuses what does not fit. -/
theorem numericCast_exact (P : Platform) (print : IntType → Int → Text)
    (getTypename : IntType → Text) (T : IntType) {S : IntType} (val : P.Value S) :
    Casts P print getTypename T val (numericCast P print getTypename T val) := by
  rw [numericCast]
  split
  · rename_i h
    subst h
    exact ⟨fun _ => ⟨_, rfl, rfl⟩, fun hout => absurd val.2 hout⟩
  split
  · rename_i hsame
    exact castSameSignedness_casts hsame
  · rename_i hne
    split
    · rename_i hS
      refine castToUnsigned_casts hS ?_
      rw [hS] at hne
      exact (Bool.eq_false_or_eq_true _).resolve_left fun h => hne h.symm
    · rename_i hS
      exact castToSigned_casts (Bool.eq_false_iff.mpr hS)

end Acatl.NumericCast

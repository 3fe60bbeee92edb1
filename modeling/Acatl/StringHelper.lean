/-
Acatl.StringHelper — `string_helper.h` and `string_helper.cpp`: `split`,
`decode`, and the trimming of strings, with what the standard library does in
them.

`std::getline` ends a piece at its delimiter, so that behind a delimiter at the
end there is no empty piece. The extraction of a number skips white space, takes
a sign and the prefix of the base, and stops at the first character that is no
digit; without a digit it fails.
-/
import Acatl.Lib.Pieces
import Acatl.Text
import Mathlib.Data.List.DropRight

namespace Acatl.StringHelper

/-! ## §1 split -/

/-- `split(s, delim, elems, addEmpty)`. -/
def split (s : Text) (delim : UInt8) (addEmpty : Bool := true) : List Text :=
  (Lib.pieces delim s).filter fun item => addEmpty || item.length ≠ 0

/-! ## §2 decode -/

/-- `std::isspace` in the classic locale. -/
def isSpace (c : UInt8) : Bool := c = 32 || (9 ≤ c && c ≤ 13)

/-- The value of a hexadecimal digit. -/
def hexValue (c : UInt8) : Option Nat :=
  if 48 ≤ c ∧ c ≤ 57 then some (c.toNat - 48)
  else if 65 ≤ c ∧ c ≤ 70 then some (c.toNat - 55)
  else if 97 ≤ c ∧ c ≤ 102 then some (c.toNat - 87)
  else none

/-- The digits at the front, as a number, and how many there are. -/
def hexDigits (acc : Nat) (count : Nat) : Text → Nat × Nat
  | [] => (acc, count)
  | c :: rest =>
    match hexValue c with
    | some digit => hexDigits (acc * 16 + digit) (count + 1) rest
    | none => (acc, count)

/-- A prefix `0x` or `0X` is skipped. -/
def skipPrefix : Text → Text
  | c :: d :: rest => if c = 48 ∧ (d = 120 ∨ d = 88) then rest else c :: d :: rest
  | s => s

/-- `is >> std::hex >> value` on a stream that is too short for an overflow. -/
def extractHex (s : Text) : Option Int :=
  let s := s.dropWhile isSpace
  let negative := s.head? = some 45
  let s := if s.head? = some 43 ∨ s.head? = some 45 then s.tail else s
  match hexDigits 0 0 (skipPrefix s) with
  | (_, 0) => none
  | (value, _ + 1) => some (if negative then -value else value)

/-- `decode(in, out)`: the result, and `out`. -/
def decode : Text → Bool × Text
  | [] => (true, [])
  | c :: rest =>
    if c = 37 then
      match rest with
      | hi :: lo :: rest =>
        match extractHex [hi, lo] with
        | none => (false, [])
        | some value => ((decode rest).1, UInt8.ofInt value :: (decode rest).2)
      | _ => (false, [])
    else if c = 43 then ((decode rest).1, 32 :: (decode rest).2)
    else ((decode rest).1, c :: (decode rest).2)

/-! ## §3 trim_left, trim_right and tolower -/

/-- What the trimming cuts off. -/
def isBlank (c : UInt8) : Bool := c = 32 || c = 9

/-- `trim_left`; a string of blanks stays as it is. -/
def trimLeft (s : Text) : Text := if s.all isBlank then s else s.dropWhile isBlank

/-- `trim_right`; a string of blanks stays as it is. -/
def trimRight (s : Text) : Text := if s.all isBlank then s else s.rdropWhile isBlank

/-- `tolower`, in the classic locale. -/
def tolower (s : Text) : Text := s.map fun c => if 65 ≤ c ∧ c ≤ 90 then c + 32 else c

end Acatl.StringHelper

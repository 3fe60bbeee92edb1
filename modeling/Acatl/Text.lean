/-
Acatl.Text — strings, as far as the library of `src/acatl` uses them.
-/
import Mathlib.Tactic.Common

namespace Acatl

/-- `std::string`. -/
abbrev Text := List UInt8

namespace Text

/-- `c_str()[i]`: behind the last character there is a NUL. -/
def charAt (text : Text) (i : Nat) : UInt8 := text.getD i 0

/-- `substr(pos, count)`. -/
def substr (text : Text) (pos count : Nat) : Text := (text.drop pos).take count

/-- The bytes of a literal. -/
def ofString (s : String) : Text := s.toUTF8.toList

end Text

end Acatl

/-
Acatl.ReplaceAll — `replaceAll` of `string_helper.cpp`.

The loop goes on behind what it has found, so that every turn is nearer to the
end of the source by the length of the pattern (`replaceLoop_isSome`), and what it
builds is the source with the leftmost occurrences replaced
(`replaceLoop_replaced`). An empty pattern is found where the search begins, and
the loop does not move (`replaceLoop_empty`).
-/
import Acatl.Lib.Occurrences
import Acatl.Text

namespace Acatl.StringHelper

open Lib (Replaced)

/-! ## §1 The loop -/

/-- `source.find(pattern, pos)`. -/
def find (source pattern : Text) (pos : Nat) : Option Nat :=
  if pos ≤ source.length then (Lib.find pattern (source.drop pos)).map (pos + ·) else none

/-- The loop of `replaceAll` and the `substr` behind it, with the number of turns that
are left; `none` if that number does not do. -/
def replaceLoop (source pattern repl : Text) : Nat → Nat → Text → Option Text
  | 0, _, _ => none
  | fuel + 1, lastPos, newString =>
    match find source pattern lastPos with
    | some findPos =>
      replaceLoop source pattern repl fuel (findPos + pattern.length)
        (newString ++ source.substr lastPos (findPos - lastPos) ++ repl)
    | none => some (newString ++ source.drop lastPos)

/-- `replaceAll(source, from, to)`. -/
def replaceAll (fuel : Nat) (source pattern repl : Text) : Option Text :=
  replaceLoop source pattern repl fuel 0 []

/-- The call returns, with this result. -/
def Returns (source pattern repl result : Text) : Prop :=
  ∃ fuel, replaceAll fuel source pattern repl = some result

/-! ## §2 One turn -/

section

variable {source pattern repl : Text}

theorem find_eq_none {pos : Nat} (hpos : pos ≤ source.length) :
    find source pattern pos = none ↔ ¬ pattern <:+: source.drop pos := by
  rw [find, if_pos hpos, Option.map_eq_none_iff, Lib.find_eq_none]

/-- What is in front of the position found, the pattern, and the rest; `substr` and
the next turn stay inside the source. -/
theorem find_eq_some {pos findPos : Nat} (h : find source pattern pos = some findPos) :
    ∃ front rest, source.drop pos = front ++ pattern ++ rest ∧
      source.substr pos (findPos - pos) = front ∧
      source.drop (findPos + pattern.length) = rest ∧
      findPos + pattern.length ≤ source.length ∧ pos ≤ findPos ∧
      ∀ j < front.length, ¬ pattern <+: (front ++ pattern ++ rest).drop j := by
  rw [find] at h
  split at h
  · rename_i hpos
    obtain ⟨i, hi, rfl⟩ := Option.map_eq_some_iff.mp h
    obtain ⟨⟨front, rest, hdrop, rfl⟩, hfirst⟩ := Lib.find_eq_some hi
    have hlen := congrArg List.length hdrop
    simp only [List.length_drop, List.length_append] at hlen
    refine ⟨front, rest, hdrop, ?_, ?_, by omega, by omega, hdrop ▸ hfirst⟩
    · rw [Text.substr, hdrop, Nat.add_sub_cancel_left, List.append_assoc, List.take_left]
    · rw [Nat.add_assoc, ← List.drop_drop, hdrop, ← List.length_append, List.drop_left]
  · cases h

end

/-! ## §3 The whole loop -/

section

variable {source pattern repl : Text}

/-- Enough turns for what is left of the source. -/
theorem replaceLoop_isSome (hne : pattern ≠ []) : ∀ {fuel lastPos : Nat} {newString : Text},
    lastPos ≤ source.length → source.length - lastPos < fuel →
      (replaceLoop source pattern repl fuel lastPos newString).isSome
  | 0, _, _, _, hfuel => absurd hfuel (Nat.not_lt_zero _)
  | fuel + 1, lastPos, newString, hpos, hfuel => by
    rw [replaceLoop]
    cases hfind : find source pattern lastPos with
    | none => rfl
    | some findPos =>
      obtain ⟨-, -, -, -, -, hinside, hle, -⟩ := find_eq_some hfind
      have hlen : 0 < pattern.length := List.length_pos_iff.mpr hne
      exact replaceLoop_isSome hne hinside (by omega)

/-- What the loop puts behind the new string. -/
theorem replaceLoop_replaced : ∀ {fuel lastPos : Nat} {newString result : Text},
    lastPos ≤ source.length →
    replaceLoop source pattern repl fuel lastPos newString = some result →
      ∃ back, Replaced pattern repl (source.drop lastPos) back ∧ result = newString ++ back
  | 0, _, _, _, _, h => by cases h
  | fuel + 1, lastPos, newString, result, hpos, h => by
    rw [replaceLoop] at h
    cases hfind : find source pattern lastPos with
    | none =>
      rw [hfind] at h
      obtain rfl := Option.some.inj h
      exact ⟨_, .none ((find_eq_none hpos).mp hfind), rfl⟩
    | some findPos =>
      rw [hfind] at h
      obtain ⟨front, rest, hdrop, hfront, hrest, hinside, -, hfirst⟩ := find_eq_some hfind
      obtain ⟨back, hback, rfl⟩ := replaceLoop_replaced hinside h
      rw [hrest] at hback
      refine ⟨front ++ repl ++ back, ?_, ?_⟩
      · rw [hdrop]
        exact .next hfirst hback
      · rw [hfront]
        simp

/-- An empty pattern is found where the search begins. -/
theorem replaceLoop_empty : ∀ {fuel lastPos : Nat} {newString : Text}, lastPos ≤ source.length →
    replaceLoop source [] repl fuel lastPos newString = none
  | 0, _, _, _ => rfl
  | fuel + 1, lastPos, newString, hpos => by
    have hfind : find source [] lastPos = some lastPos := by
      cases hdrop : source.drop lastPos with
      | nil => simp [find, hpos, hdrop, Lib.find]
      | cons c cs => simp [find, hpos, hdrop, Lib.find]
    rw [replaceLoop, hfind]
    exact replaceLoop_empty hpos

end

/-! ## §4 replaceAll -/

theorem returns_replaced {source pattern repl result : Text}
    (h : Returns source pattern repl result) : Replaced pattern repl source result := by
  obtain ⟨fuel, hfuel⟩ := h
  obtain ⟨back, hback, rfl⟩ := replaceLoop_replaced (Nat.zero_le _) hfuel
  exact hback

theorem exists_returns (source repl : Text) {pattern : Text} (hne : pattern ≠ []) :
    ∃ result, Returns source pattern repl result := by
  have hsome : (replaceAll (source.length + 1) source pattern repl).isSome :=
    replaceLoop_isSome hne (Nat.zero_le _) (by omega)
  obtain ⟨result, hresult⟩ := Option.isSome_iff_exists.mp hsome
  exact ⟨result, _, hresult⟩

theorem not_returns_empty (source repl result : Text) : ¬ Returns source [] repl result := by
  rintro ⟨fuel, hfuel⟩
  rw [replaceAll, replaceLoop_empty (Nat.zero_le _)] at hfuel
  cases hfuel

/-- The call returns, its result is the source with the occurrences of the pattern
replaced and no other string, and a pattern replaced by itself changes nothing. -/
structure ReplacesAll (source pattern repl : Text) : Prop where
  terminates : ∃ result, Returns source pattern repl result
  leftmost : pattern ≠ [] → ∀ result,
    Returns source pattern repl result ↔ Replaced pattern repl source result
  identity : pattern = repl → ∀ result, Returns source pattern repl result → result = source

/-- **`replaceAll` replaces all occurrences, of any pattern but the empty one.** -/
theorem replacesAll_iff (source pattern repl : Text) :
    ReplacesAll source pattern repl ↔ pattern ≠ [] := by
  refine ⟨?_, fun hne => ⟨exists_returns source repl hne,
    fun _ result => ⟨returns_replaced, fun h => ?_⟩, ?_⟩⟩
  · rintro h rfl
    obtain ⟨result, hresult⟩ := h.terminates
    exact not_returns_empty source repl result hresult
  · obtain ⟨result', hresult⟩ := exists_returns source repl hne
    rwa [h.unique (returns_replaced hresult)]
  · rintro rfl result hresult
    exact (returns_replaced hresult).self

/-- With an empty pattern the loop never ends, on the empty string too. -/
theorem not_always_replacesAll :
    ¬ ∀ source pattern repl : Text, ReplacesAll source pattern repl := by
  intro h
  obtain ⟨result, hresult⟩ := (h [] [] []).terminates
  exact not_returns_empty [] [] result hresult

/-- Overlapping occurrences, and a replacement that holds the pattern. -/
example : replaceAll 4 [97, 97, 97] [97, 97] [97, 97, 98] = some [97, 97, 98, 97] := by decide

end Acatl.StringHelper

/-
Acatl.Lib.Occurrences — where a pattern occurs in a list, and what becomes of the
list when its occurrences are replaced.

  `find`         the first position of the pattern, by structural recursion.
  `find_eq_none`, `find_eq_some`
                 what a search that fails, and one that succeeds, says.
  `Replaced`     the leftmost occurrence is replaced, and then those of what is
                 behind it; a pattern that is not empty determines the result
                 (`Replaced.unique`).

Nothing here is about strings; `Acatl.ReplaceAll` instantiates it.
-/
import Mathlib.Data.List.Infix

namespace Acatl.Lib

variable {α : Type}

section

variable [DecidableEq α]

/-- The first position at which the pattern occurs. -/
def find (pat : List α) : List α → Option Nat
  | [] => if pat = [] then some 0 else none
  | a :: as => if pat <+: a :: as then some 0 else (find pat as).map (· + 1)

theorem find_eq_none {pat : List α} : ∀ {as : List α}, find pat as = none ↔ ¬ pat <:+: as
  | [] => by simp [find]
  | a :: as => by
    have ih : find pat as = none ↔ ¬ pat <:+: as := find_eq_none
    rw [List.infix_cons_iff, find]
    by_cases h : pat <+: a :: as
    · simp [h]
    · simp [h, ih]

/-- The pattern occurs at the position that is found, and at none before it. -/
theorem find_eq_some {pat : List α} : ∀ {as : List α} {i : Nat}, find pat as = some i →
    (∃ front rest, as = front ++ pat ++ rest ∧ front.length = i) ∧
      ∀ j < i, ¬ pat <+: as.drop j
  | [], i, h => by
    rw [find] at h
    split at h
    · rename_i hnil
      obtain rfl := Option.some.inj h
      exact ⟨⟨[], [], by simp [hnil], rfl⟩, fun j hj => absurd hj (Nat.not_lt_zero j)⟩
    · cases h
  | a :: as, i, h => by
    rw [find] at h
    split at h
    · rename_i hprefix
      obtain rfl := Option.some.inj h
      obtain ⟨rest, hrest⟩ := hprefix
      exact ⟨⟨[], rest, by simp [hrest], rfl⟩, fun j hj => absurd hj (Nat.not_lt_zero j)⟩
    · rename_i hprefix
      obtain ⟨k, hk, rfl⟩ := Option.map_eq_some_iff.mp h
      obtain ⟨⟨front, rest, has, hlen⟩, hfirst⟩ := find_eq_some hk
      refine ⟨⟨a :: front, rest, by simp [has], by simp [hlen]⟩, fun j hj => ?_⟩
      cases j with
      | zero => exact hprefix
      | succ j => exact hfirst j (by omega)

end

/-! ## Replacing -/

/-- `as` with the leftmost occurrences of the pattern, none of which overlaps with
the one before it, replaced. -/
inductive Replaced (pat repl : List α) : List α → List α → Prop
  | none {as : List α} (h : ¬ pat <:+: as) : Replaced pat repl as as
  | next {front rest result : List α}
      (hfirst : ∀ j < front.length, ¬ pat <+: (front ++ pat ++ rest).drop j)
      (hrest : Replaced pat repl rest result) :
      Replaced pat repl (front ++ pat ++ rest) (front ++ repl ++ result)

theorem prefix_drop_front (front pat rest : List α) :
    pat <+: (front ++ pat ++ rest).drop front.length := by
  rw [List.append_assoc, List.drop_left]
  exact List.prefix_append pat rest

/-- Two first occurrences are the same one. -/
theorem first_unique {pat front front' rest rest' : List α}
    (h : front ++ pat ++ rest = front' ++ pat ++ rest')
    (hfirst : ∀ j < front.length, ¬ pat <+: (front ++ pat ++ rest).drop j)
    (hfirst' : ∀ j < front'.length, ¬ pat <+: (front' ++ pat ++ rest').drop j) :
    front = front' ∧ rest = rest' := by
  have hle : front'.length ≤ front.length := by
    by_contra hlt
    exact hfirst' front.length (by omega) (h ▸ prefix_drop_front front pat rest)
  have hge : front.length ≤ front'.length := by
    by_contra hlt
    exact hfirst front'.length (by omega) (h ▸ prefix_drop_front front' pat rest')
  rw [List.append_assoc, List.append_assoc] at h
  obtain ⟨rfl, hback⟩ := List.append_inj h (by omega)
  exact ⟨rfl, List.append_cancel_left hback⟩

theorem infix_front (front pat rest : List α) : pat <:+: front ++ pat ++ rest :=
  ⟨front, rest, rfl⟩

theorem Replaced.unique {pat repl as result result' : List α} (h : Replaced pat repl as result)
    (h' : Replaced pat repl as result') : result = result' := by
  induction h generalizing result' with
  | none hno =>
    cases h' with
    | none => rfl
    | next => exact absurd (infix_front ..) hno
  | @next front rest result hfirst hrest ih =>
    generalize has : front ++ pat ++ rest = as at h'
    cases h' with
    | none hno => exact absurd (has ▸ infix_front front pat rest) hno
    | next hfirst' hrest' =>
      obtain ⟨rfl, rfl⟩ := first_unique has hfirst hfirst'
      rw [ih hrest']

/-- What is replaced by itself does not change. -/
theorem Replaced.self {pat as result : List α} (h : Replaced pat pat as result) :
    result = as := by
  induction h with
  | none => rfl
  | next _ _ ih => rw [ih]

end Acatl.Lib

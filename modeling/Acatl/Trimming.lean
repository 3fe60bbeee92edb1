/-
Acatl.Trimming — `trim_left` and `trim_right` together.

A string with a character that is no blank is a core with blanks around it
(`exists_core`), and each of the two functions cuts off one side. A string of
blanks is what neither of them cuts, as `find_first_not_of` and
`find_last_not_of` find nothing there (`trims_iff`).
-/
import Acatl.StringHelper

namespace Acatl.StringHelper

/-! ## §1 A core with blanks around it -/

def AllBlank (s : Text) : Prop := ∀ c ∈ s, isBlank c = true

/-- What is left of a string that is not all blanks. -/
structure Core (s : Text) : Prop where
  nonempty : s ≠ []
  front : ∀ c ∈ s.head?, isBlank c = false
  back : ∀ c ∈ s.getLast?, isBlank c = false

theorem Core.exists_mem {s : Text} (h : Core s) : ∃ c ∈ s, isBlank c = false := by
  obtain ⟨c, rest, rfl⟩ := List.exists_cons_of_ne_nil h.nonempty
  exact ⟨c, by simp, h.front c rfl⟩

theorem all_isBlank_around {core : Text} (h : Core core) (before after : Text) :
    (before ++ core ++ after).all isBlank = false := by
  obtain ⟨c, hc, hblank⟩ := h.exists_mem
  exact List.all_eq_false.mpr ⟨c, by simp [hc], by simp [hblank]⟩

/-- **Every string with a character that is no blank has a core.** -/
theorem exists_core {s : Text} (h : ∃ c ∈ s, isBlank c = false) :
    ∃ before core after, AllBlank before ∧ Core core ∧ AllBlank after ∧
      s = before ++ core ++ after := by
  have hsplit := List.takeWhile_append_dropWhile (p := isBlank) (l := s)
  generalize hleft : s.dropWhile isBlank = left at hsplit
  have hblank : AllBlank (s.takeWhile isBlank) := fun c hc => List.mem_takeWhile_imp hc
  have hne : left ≠ [] := by
    rintro rfl
    obtain ⟨c, hc, hnot⟩ := h
    rw [List.dropWhile_eq_nil_iff] at hleft
    rw [hleft c hc] at hnot
    cases hnot
  have hfront : ∀ c ∈ left.head?, isBlank c = false := by
    intro c hc
    have hhead := List.head?_dropWhile_not isBlank s
    rw [hleft, Option.mem_def.mp hc] at hhead
    simpa using hhead
  have hback := List.rdropWhile_append_rtakeWhile (p := isBlank) (l := left)
  have hcore : left.rdropWhile isBlank ≠ [] := by
    intro hnil
    obtain ⟨c, rest, rfl⟩ := List.exists_cons_of_ne_nil hne
    have hc := List.rdropWhile_eq_nil_iff.mp hnil c (by simp)
    rw [hfront c rfl] at hc
    cases hc
  refine ⟨s.takeWhile isBlank, left.rdropWhile isBlank, left.rtakeWhile isBlank, hblank,
    ⟨hcore, ?_, ?_⟩, fun c hc => List.mem_rtakeWhile_imp hc, ?_⟩
  · intro c hc
    refine hfront c ?_
    rw [← hback, List.head?_append_of_ne_nil _ hcore]
    exact hc
  · intro c hc
    rw [List.getLast?_eq_some_getLast hcore] at hc
    obtain rfl := Option.some.inj hc
    simpa using List.rdropWhile_last_not isBlank left hcore
  · rw [List.append_assoc, hback, hsplit]

/-! ## §2 Each side -/

section

variable {before core after : Text}

theorem trimLeft_around (hbefore : AllBlank before) (hcore : Core core) (after : Text) :
    trimLeft (before ++ core ++ after) = core ++ after := by
  have hall := all_isBlank_around hcore before after
  rw [trimLeft, if_neg (by rw [hall]; exact Bool.false_ne_true), List.append_assoc,
    List.dropWhile_append_of_pos hbefore]
  obtain ⟨c, rest, rfl⟩ := List.exists_cons_of_ne_nil hcore.nonempty
  have hc : isBlank c = false := hcore.front c rfl
  simp [hc]

theorem trimRight_around (before : Text) (hcore : Core core) (hafter : AllBlank after) :
    trimRight (before ++ core ++ after) = before ++ core := by
  have hall := all_isBlank_around hcore before after
  have hend : (before ++ core).rdropWhile isBlank = before ++ core := by
    refine List.rdropWhile_eq_self_iff.mpr fun hne => ?_
    have hlast : core.getLast hcore.nonempty ∈ core.getLast? :=
      List.getLast?_eq_some_getLast hcore.nonempty
    rw [List.getLast_append_of_ne_nil _ hcore.nonempty, hcore.back _ hlast]
    exact Bool.false_ne_true
  have hpos : ∀ c ∈ after.reverse, isBlank c = true := fun c hc => hafter c (by simpa using hc)
  rw [trimRight, if_neg (by rw [hall]; exact Bool.false_ne_true), List.rdropWhile,
    List.reverse_append, List.dropWhile_append_of_pos hpos]
  exact hend

theorem allBlank_nil : AllBlank [] := by simp [AllBlank]

theorem Core.trimLeft_eq (hcore : Core core) : trimLeft core = core := by
  simpa using trimLeft_around allBlank_nil hcore []

theorem Core.trimRight_eq (hcore : Core core) : trimRight core = core := by
  simpa using trimRight_around [] hcore allBlank_nil

/-- What is left of a core with blanks around it. -/
theorem trim_around (hbefore : AllBlank before) (hcore : Core core) (hafter : AllBlank after) :
    trimRight (trimLeft (before ++ core ++ after)) = core := by
  rw [trimLeft_around hbefore hcore after]
  exact trimRight_around [] hcore hafter

end

/-! ## §3 Both sides -/

/-- The two functions are the same in either order, nothing blank is left at the
ends, nothing else is cut off, and there is nothing more to do. -/
structure Trims (s : Text) : Prop where
  commute : trimRight (trimLeft s) = trimLeft (trimRight s)
  front : ∀ c ∈ (trimRight (trimLeft s)).head?, isBlank c = false
  back : ∀ c ∈ (trimRight (trimLeft s)).getLast?, isBlank c = false
  around : ∃ before after, AllBlank before ∧ AllBlank after ∧
    s = before ++ trimRight (trimLeft s) ++ after
  left : trimLeft (trimRight (trimLeft s)) = trimRight (trimLeft s)
  right : trimRight (trimRight (trimLeft s)) = trimRight (trimLeft s)

/-- What both make of a core with blanks around it. -/
theorem trims_around {before core after : Text} (hbefore : AllBlank before) (hcore : Core core)
    (hafter : AllBlank after) : Trims (before ++ core ++ after) := by
  have hleft : trimLeft (before ++ core) = core := by
    simpa using trimLeft_around hbefore hcore []
  have hresult := trim_around hbefore hcore hafter
  refine ⟨?_, ?_, ?_, ⟨before, after, hbefore, hafter, ?_⟩, ?_, ?_⟩
  · rw [hresult, trimRight_around before hcore hafter, hleft]
  · rw [hresult]
    exact hcore.front
  · rw [hresult]
    exact hcore.back
  · rw [hresult]
  · rw [hresult, hcore.trimLeft_eq]
  · rw [hresult, hcore.trimRight_eq]

theorem trim_blanks {s : Text} (h : AllBlank s) : trimRight (trimLeft s) = s := by
  have hall : s.all isBlank = true := List.all_eq_true.mpr h
  rw [trimLeft, if_pos hall, trimRight, if_pos hall]

/-- **Trimming removes all outer blanks, but not those of a string that has
nothing else.** -/
theorem trims_iff (s : Text) : Trims s ↔ s = [] ∨ ∃ c ∈ s, isBlank c = false := by
  refine ⟨fun h => ?_, fun h => ?_⟩
  · by_contra hno
    obtain ⟨hne, hblank⟩ := not_or.mp hno
    have hall : AllBlank s := fun c hc => by
      by_contra hnot
      exact hblank ⟨c, hc, by simpa using hnot⟩
    obtain ⟨c, rest, rfl⟩ := List.exists_cons_of_ne_nil hne
    have hfront := h.front
    rw [trim_blanks hall] at hfront
    exact hblank ⟨c, by simp, hfront c rfl⟩
  · rcases h with rfl | h
    · have hnil : trimRight (trimLeft []) = [] := rfl
      have hnone : AllBlank [] := by simp [AllBlank]
      exact ⟨rfl, by simp [hnil], by simp [hnil], ⟨[], [], hnone, hnone, rfl⟩, rfl, rfl⟩
    · obtain ⟨before, core, after, hbefore, hcore, hafter, rfl⟩ := exists_core h
      exact trims_around hbefore hcore hafter

/-- A single space stays. -/
theorem not_always_trims : ¬ ∀ s : Text, Trims s := by
  intro h
  exact absurd ((h [32]).front 32 rfl) (by decide)

end Acatl.StringHelper

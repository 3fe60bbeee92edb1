/-
Acatl.Lib.LastWrite — registers that are written several times, and keep what
was written last.

  `written`            what a register holds after a list of writes.
  `field_foldl`        a field that every step writes or leaves alone.
  `shared_iff`         when the writes that are meant for several registers can
                       all go to the first one, and none of them shows it.

Nothing here is about cookies; `Acatl.Net.CookieLists` instantiates it.
-/
import Mathlib.Data.List.Basic

namespace Acatl.Lib

variable {α : Type}

/-- What a register holds after some writes. -/
def written (initial : α) (writes : List α) : α := writes.getLast?.getD initial

@[simp] theorem written_nil (initial : α) : written initial [] = initial := rfl

theorem written_cons (initial w : α) (writes : List α) :
    written initial (w :: writes) = written w writes := by
  rw [written, written, List.getLast?_cons, Option.getD_some]

theorem written_append (initial : α) (first second : List α) :
    written initial (first ++ second) = written (written initial first) second := by
  induction first generalizing initial with
  | nil => rfl
  | cons w first ih => rw [List.cons_append, written_cons, ih, written_cons]

/-- After a write it does not matter what the register held before. -/
theorem written_of_ne_nil {writes : List α} (h : writes ≠ []) (a b : α) :
    written a writes = written b writes := by
  obtain ⟨w, ws, rfl⟩ := List.exists_cons_of_ne_nil h
  rw [written_cons, written_cons]

/-- A field that a step writes or leaves alone holds the last of its writes. -/
theorem field_foldl {State Step : Type} (step : State → Step → State) (field : State → α)
    (write : Step → Option α) (h : ∀ s a, field (step s a) = (write a).getD (field s))
    (steps : List Step) (s : State) :
    field (steps.foldl step s) = written (field s) (steps.filterMap write) := by
  induction steps generalizing s with
  | nil => rfl
  | cons a steps ih =>
    rw [List.foldl_cons, ih, h, List.filterMap_cons]
    cases write a with
    | none => rfl
    | some w => rw [written_cons, Option.getD_some]

/-- Writes that leave every register as it was leave one register as it was. -/
theorem written_flatten {initial : α} {lists : List (List α)}
    (h : ∀ writes ∈ lists, written initial writes = initial) :
    written initial lists.flatten = initial := by
  induction lists with
  | nil => rfl
  | cons writes lists ih =>
    rw [List.flatten_cons, written_append, h writes (by simp),
      ih fun other hother => h other (by simp [hother])]

/-- **One register for all.** All writes go to the first of several registers.
It holds what its own writes leave there, and the others hold what their own
writes would leave there, just if only the first register is written at all, or
all of them are left as they were. -/
theorem shared_iff (initial : α) (first : List α) (later : List (List α)) :
    (written initial (first ++ later.flatten) = written initial first ∧
        ∀ writes ∈ later, initial = written initial writes) ↔
      (∀ writes ∈ later, writes = []) ∨
        ∀ writes ∈ first :: later, written initial writes = initial := by
  refine ⟨fun h => ?_, fun h => ?_⟩
  · obtain ⟨hfirst, hlater⟩ := h
    by_cases hnone : ∀ writes ∈ later, writes = []
    · exact .inl hnone
    · -- somebody else writes, and what is written last is what was there before
      have hsettled := written_flatten fun writes hw => (hlater writes hw).symm
      have hsome : later.flatten ≠ [] := fun hnil => hnone (List.flatten_eq_nil_iff.mp hnil)
      rw [written_append, written_of_ne_nil hsome _ initial, hsettled] at hfirst
      refine .inr fun writes hw => ?_
      rcases List.mem_cons.mp hw with rfl | hw
      · exact hfirst.symm
      · exact (hlater writes hw).symm
  · rcases h with hnone | hall
    · refine ⟨?_, fun writes hw => by rw [hnone writes hw, written_nil]⟩
      rw [List.flatten_eq_nil_iff.mpr hnone, List.append_nil]
    · have hlater : ∀ writes ∈ later, written initial writes = initial :=
        fun writes hw => hall writes (by simp [hw])
      refine ⟨?_, fun writes hw => (hlater writes hw).symm⟩
      rw [written_append, hall first (by simp), written_flatten hlater]

end Acatl.Lib

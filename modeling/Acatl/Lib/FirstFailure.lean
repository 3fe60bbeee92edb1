/-
Acatl.Lib.FirstFailure — loops that end with the first failure.

  `FailsFirst`      an element fails, and none in front of it does.
  `mapM_eq_error`   the failures of `mapM`.
  `foldlM_eq_error` those of `foldlM`, where the state has no say in them.
  `foldlM_error_of` some turn of `foldlM` fails so.

Nothing here is about cookies.
-/
import Mathlib.Tactic.Common

namespace Acatl.Lib

variable {S α β ε : Type}

/-- The first element that fails does so with this error. -/
def FailsFirst (g : α → Except ε β) (as : List α) (e : ε) : Prop :=
  ∃ front a back, as = front ++ a :: back ∧ (∀ b ∈ front, ∃ r, g b = .ok r) ∧ g a = .error e

variable {g : α → Except ε β} {a : α} {as : List α} {e : ε}

@[simp] theorem not_failsFirst_nil : ¬ FailsFirst g [] e := by
  intro h
  obtain ⟨front, a, back, h, -⟩ := h
  simp at h

theorem failsFirst_cons :
    FailsFirst g (a :: as) e ↔ g a = .error e ∨ (∃ r, g a = .ok r) ∧ FailsFirst g as e := by
  refine ⟨fun h => ?_, fun h => ?_⟩
  · obtain ⟨front, b, back, has, hfront, hb⟩ := h
    cases front with
    | nil =>
      obtain ⟨rfl, -⟩ := List.cons.inj has
      exact .inl hb
    | cons c front =>
      obtain ⟨rfl, rfl⟩ := List.cons.inj has
      exact .inr ⟨hfront a (by simp), front, b, back, rfl,
        fun d hd => hfront d (List.mem_cons_of_mem _ hd), hb⟩
  · obtain ha | ⟨ha, front, b, back, rfl, hfront, hb⟩ := h
    · exact ⟨[], a, as, rfl, by simp, ha⟩
    · refine ⟨a :: front, b, back, rfl, fun d hd => ?_, hb⟩
      rcases List.mem_cons.mp hd with rfl | hd
      · exact ha
      · exact hfront d hd

theorem mapM_eq_error : as.mapM g = .error e ↔ FailsFirst g as e := by
  induction as with
  | nil => simp [pure, Except.pure]
  | cons a as ih =>
    rw [List.mapM_cons, failsFirst_cons, ← ih]
    cases ha : g a with
    | error e' => simp [bind, Except.bind]
    | ok b => cases hrest : as.mapM g <;> simp [bind, Except.bind, pure, Except.pure]

theorem exists_mapM_eq_ok : (∃ bs, as.mapM g = .ok bs) ↔ ∀ a ∈ as, ∃ b, g a = .ok b := by
  induction as with
  | nil => simp [pure, Except.pure]
  | cons a as ih =>
    rw [List.mapM_cons, List.forall_mem_cons, ← ih]
    cases ha : g a with
    | error e => simp [bind, Except.bind]
    | ok b => cases hrest : as.mapM g <;> simp [bind, Except.bind, pure, Except.pure]

/-- Turns that read an element and then only change the state. -/
theorem foldlM_eq_error {f : S → α → Except ε S} {next : S → β → S}
    (hf : ∀ s a, f s a = (g a).map (next s)) (s : S) :
    as.foldlM f s = .error e ↔ FailsFirst g as e := by
  induction as generalizing s with
  | nil => simp [pure, Except.pure]
  | cons a as ih =>
    rw [List.foldlM_cons, failsFirst_cons, hf]
    cases ha : g a with
    | error e' => simp [bind, Except.bind, Except.map]
    | ok b => simpa [bind, Except.bind, Except.map] using ih (next s b)

theorem foldlM_error_of {f : S → α → Except ε S} {s : S} (h : as.foldlM f s = .error e) :
    ∃ s', ∃ a ∈ as, f s' a = .error e := by
  induction as generalizing s with
  | nil => simp [pure, Except.pure] at h
  | cons a as ih =>
    rw [List.foldlM_cons] at h
    cases ha : f s a with
    | error e' =>
      rw [ha] at h
      cases h
      exact ⟨s, a, by simp, ha⟩
    | ok s' =>
      rw [ha] at h
      obtain ⟨s'', b, hb, hfail⟩ := ih h
      exact ⟨s'', b, List.mem_cons_of_mem _ hb, hfail⟩

end Acatl.Lib

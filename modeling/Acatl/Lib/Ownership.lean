/-
Acatl.Lib.Ownership — objects that own a cell each.

  §1  `Holdings`: the cells in use, the objects alive, and which object holds
      which cell.  `Owned`: every cell in use has exactly one owner.
  §2  What an object can do with its cell: begin with none or with a new one,
      exchange it for another's, overwrite it, and end with it.  Each keeps
      `Owned` (`owned_*`), and what it does to the values of the objects
      (`values_*`) is what it would do if the objects were their values.

What is in the cells, and what the objects are, is left open.
-/
import Mathlib.Logic.Equiv.Basic

namespace Acatl.Lib

/-- The cells in use with what is in them, and the objects alive with the cell
that each of them holds, if it holds one. -/
structure Holdings (X L V : Type) where
  cell : L → Option V
  held : X → Option (Option L)

namespace Holdings

variable {X L V : Type}

/-! ## §1 Owners -/

/-- What the objects alive are worth. -/
def values (s : Holdings X L V) (x : X) : Option (Option V) := (s.held x).map (·.bind s.cell)

/-- Whatever is held is in use, by one object only, and nothing else is in use. -/
structure Owned (s : Holdings X L V) : Prop where
  live : ∀ x l, s.held x = some (some l) → (s.cell l).isSome
  unique : ∀ x y l, s.held x = some (some l) → s.held y = some (some l) → x = y
  kept : ∀ l, (s.cell l).isSome → ∃ x, s.held x = some (some l)

/-- Nothing is alive and nothing is in use. -/
def empty : Holdings X L V := ⟨fun _ => none, fun _ => none⟩

theorem owned_empty : (empty : Holdings X L V).Owned where
  live := by simp [empty]
  unique := by simp [empty]
  kept := by simp [empty]

@[simp] theorem values_empty : (empty : Holdings X L V).values = fun _ => none := rfl

theorem values_of_held {s : Holdings X L V} {x : X} {p : Option L} (h : s.held x = some p) :
    s.values x = some (p.bind s.cell) := by
  simp [values, h]

@[simp] theorem values_eq_none {s : Holdings X L V} {x : X} :
    s.values x = none ↔ s.held x = none := by
  simp [values]

@[simp] theorem isSome_values (s : Holdings X L V) (x : X) :
    (s.values x).isSome = (s.held x).isSome := by
  simp [values]

/-- A cell in use has exactly one owner. -/
theorem Owned.existsUnique {s : Holdings X L V} (hs : s.Owned) {l : L}
    (hl : (s.cell l).isSome) : ∃! x, s.held x = some (some l) := by
  obtain ⟨x, hx⟩ := hs.kept l hl
  exact ⟨x, hx, fun y hy => hs.unique y x l hy hx⟩

/-- No object holds a cell that is not in use. -/
theorem Owned.not_held {s : Holdings X L V} (hs : s.Owned) {l : L} (hl : s.cell l = none) (x : X) :
    s.held x ≠ some (some l) := by
  intro hx
  have := hs.live x l hx
  simp [hl] at this

/-! ## §2 What an object does with its cell -/

variable [DecidableEq X] [DecidableEq L]

/-- An object begins with no cell. -/
def start (x : X) (s : Holdings X L V) : Holdings X L V :=
  { s with held := Function.update s.held x (some none) }

/-- An object begins with a new cell. -/
def startWith (x : X) (l : L) (v : V) (s : Holdings X L V) : Holdings X L V where
  cell := Function.update s.cell l (some v)
  held := Function.update s.held x (some (some l))

/-- Two objects exchange what they hold. -/
def exchange (x y : X) (s : Holdings X L V) : Holdings X L V :=
  { s with held := Function.update (Function.update s.held x (s.held y)) y (s.held x) }

/-- Something else is put into a cell. -/
def overwrite (l : L) (v : V) (s : Holdings X L V) : Holdings X L V :=
  { s with cell := Function.update s.cell l (some v) }

/-- An object ends, and what it holds, if anything, with it. -/
def finish (x : X) (p : Option L) (s : Holdings X L V) : Holdings X L V where
  cell := match p with
    | none => s.cell
    | some l => Function.update s.cell l none
  held := Function.update s.held x none

omit [DecidableEq L] in
theorem owned_start {s : Holdings X L V} (hs : s.Owned) (x : X) (hx : s.held x = none) :
    (s.start x).Owned where
  live := by
    intro y l hy
    by_cases h : y = x
    · simp [start, h] at hy
    · exact hs.live y l (by simpa [start, h] using hy)
  unique := by
    intro y z l hy hz
    have hne : ∀ w, (s.start x).held w = some (some l) → s.held w = some (some l) := by
      intro w hw
      by_cases h : w = x
      · simp [start, h] at hw
      · simpa [start, h] using hw
    exact hs.unique y z l (hne y hy) (hne z hz)
  kept := by
    intro l hl
    obtain ⟨y, hy⟩ := hs.kept l hl
    have hne : y ≠ x := by rintro rfl; simp [hx] at hy
    exact ⟨y, by simpa [start, hne] using hy⟩

omit [DecidableEq L] in
@[simp] theorem values_start (s : Holdings X L V) (x : X) :
    (s.start x).values = Function.update s.values x (some none) := by
  funext y
  by_cases h : y = x
  · subst h; simp [values, start]
  · simp [values, start, h]

theorem owned_startWith {s : Holdings X L V} (hs : s.Owned) {x : X} {l : L} (v : V)
    (hx : s.held x = none) (hl : s.cell l = none) : (s.startWith x l v).Owned where
  live := by
    intro y k hy
    by_cases hk : k = l
    · simp [startWith, hk]
    · have hyx : y ≠ x := by
        rintro rfl
        simp [startWith, Ne.symm hk] at hy
      have := hs.live y k (by simpa [startWith, hyx] using hy)
      simpa [startWith, hk] using this
  unique := by
    intro y z k hy hz
    -- the new cell is the new object's only, since nothing held it before
    have hcases : ∀ w, (s.startWith x l v).held w = some (some k) →
        (w = x ∧ k = l) ∨ (w ≠ x ∧ s.held w = some (some k)) := by
      intro w hw
      by_cases h : w = x
      · refine .inl ⟨h, ?_⟩
        simpa [startWith, h, eq_comm] using hw
      · exact .inr ⟨h, by simpa [startWith, h] using hw⟩
    rcases hcases y hy with ⟨hyx, rfl⟩ | ⟨-, hy'⟩
    · rcases hcases z hz with ⟨hzx, -⟩ | ⟨-, hz'⟩
      · rw [hyx, hzx]
      · exact absurd hz' (hs.not_held hl z)
    · rcases hcases z hz with ⟨-, rfl⟩ | ⟨-, hz'⟩
      · exact absurd hy' (hs.not_held hl y)
      · exact hs.unique y z k hy' hz'
  kept := by
    intro k hk
    by_cases h : k = l
    · exact ⟨x, by simp [startWith, h]⟩
    · obtain ⟨y, hy⟩ := hs.kept k (by simpa [startWith, h] using hk)
      have hne : y ≠ x := by rintro rfl; simp [hx] at hy
      exact ⟨y, by simpa [startWith, hne] using hy⟩

theorem values_startWith {s : Holdings X L V} (hs : s.Owned) {x : X} {l : L} (v : V)
    (hl : s.cell l = none) :
    (s.startWith x l v).values = Function.update s.values x (some (some v)) := by
  funext y
  by_cases h : y = x
  · subst h; simp [values, startWith]
  · have hcell : ∀ k, s.held y = some (some k) →
        Function.update s.cell l (some v) k = s.cell k := by
      intro k hk
      refine Function.update_of_ne ?_ _ _
      rintro rfl
      exact hs.not_held hl y hk
    rcases hy : s.held y with - | - | k
    · simp [values, startWith, h, hy]
    · simp [values, startWith, h, hy]
    · simp [values, startWith, h, hy, hcell k hy]

omit [DecidableEq L] in
/-- Who holds a cell after an exchange. -/
theorem held_exchange (s : Holdings X L V) (x y z : X) :
    (s.exchange x y).held z = s.held (Equiv.swap x y z) := by
  by_cases hy : z = y
  · simp [exchange, hy]
  · by_cases hx : z = x
    · subst hx; simp [exchange, Function.update_of_ne hy]
    · simp [exchange, hy, hx, Equiv.swap_apply_of_ne_of_ne]

omit [DecidableEq L] in
theorem owned_exchange {s : Holdings X L V} (hs : s.Owned) (x y : X) : (s.exchange x y).Owned where
  live := by
    intro z l hz
    rw [held_exchange] at hz
    exact hs.live _ l hz
  unique := by
    intro z w l hz hw
    rw [held_exchange] at hz hw
    exact (Equiv.swap x y).injective (hs.unique _ _ l hz hw)
  kept := by
    intro l hl
    obtain ⟨z, hz⟩ := hs.kept l hl
    exact ⟨Equiv.swap x y z, by rw [held_exchange, Equiv.swap_apply_self, hz]⟩

omit [DecidableEq L] in
@[simp] theorem values_exchange (s : Holdings X L V) (x y : X) :
    (s.exchange x y).values =
      Function.update (Function.update s.values x (s.values y)) y (s.values x) := by
  funext z
  by_cases hy : z = y
  · simp [values, exchange, hy]
  · by_cases hx : z = x
    · subst hx; simp [values, exchange, Function.update_of_ne hy]
    · simp [values, exchange, hy, hx]

omit [DecidableEq X] in
theorem owned_overwrite {s : Holdings X L V} (hs : s.Owned) {x : X} {l : L} (v : V)
    (hx : s.held x = some (some l)) : (s.overwrite l v).Owned where
  live := by
    intro y k hy
    by_cases h : k = l
    · simp [overwrite, h]
    · simpa [overwrite, h] using hs.live y k hy
  unique := hs.unique
  kept := by
    intro k hk
    by_cases h : k = l
    · exact ⟨x, h ▸ hx⟩
    · exact hs.kept k (by simpa [overwrite, h] using hk)

/-- What is written into an object's cell, no other object sees. -/
theorem values_overwrite {s : Holdings X L V} (hs : s.Owned) {x : X} {l : L} (v : V)
    (hx : s.held x = some (some l)) :
    (s.overwrite l v).values = Function.update s.values x (some (some v)) := by
  funext y
  by_cases h : y = x
  · subst h; simp [values, overwrite, hx]
  · rcases hy : s.held y with - | - | k
    · simp [values, overwrite, h, hy]
    · simp [values, overwrite, h, hy]
    · have hne : k ≠ l := by
        rintro rfl
        exact h (hs.unique y x k hy hx)
      simp [values, overwrite, h, hy, hne]

theorem owned_finish {s : Holdings X L V} (hs : s.Owned) {x : X} {p : Option L}
    (hx : s.held x = some p) : (s.finish x p).Owned where
  live := by
    intro y k hy
    have hne : y ≠ x := by rintro rfl; simp [finish] at hy
    have hold : s.held y = some (some k) := by simpa [finish, hne] using hy
    cases p with
    | none => exact hs.live y k hold
    | some l =>
      have hk : k ≠ l := by
        rintro rfl
        exact hne (hs.unique y x k hold hx)
      simpa [finish, hk] using hs.live y k hold
  unique := by
    intro y z k hy hz
    have hold : ∀ w, (s.finish x p).held w = some (some k) → s.held w = some (some k) := by
      intro w hw
      have hne : w ≠ x := by rintro rfl; simp [finish] at hw
      simpa [finish, hne] using hw
    exact hs.unique y z k (hold y hy) (hold z hz)
  kept := by
    intro k hk
    have hcell : (s.cell k).isSome ∧ p ≠ some k := by
      cases p with
      | none => exact ⟨hk, by simp⟩
      | some l =>
        by_cases h : k = l
        · simp [finish, h] at hk
        · exact ⟨by simpa [finish, h] using hk, by simpa using Ne.symm h⟩
    obtain ⟨y, hy⟩ := hs.kept k hcell.1
    have hne : y ≠ x := by
      rintro rfl
      exact hcell.2 (by simpa [hx] using hy)
    exact ⟨y, by simpa [finish, hne] using hy⟩

theorem values_finish {s : Holdings X L V} (hs : s.Owned) {x : X} {p : Option L}
    (hx : s.held x = some p) : (s.finish x p).values = Function.update s.values x none := by
  funext y
  by_cases h : y = x
  · simp [values, finish, h]
  · rcases hy : s.held y with - | - | k
    · simp [values, finish, h, hy]
    · simp [values, finish, h, hy]
    · cases p with
      | none => simp [values, finish, h, hy]
      | some l =>
        have hne : k ≠ l := by
          rintro rfl
          exact h (hs.unique y x k hy hx)
        simp [values, finish, h, hy, hne]

end Holdings

end Acatl.Lib

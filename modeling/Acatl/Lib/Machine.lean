/-
Acatl.Lib.Machine — machines that read one input at a time and answer each.

  §1  `after` and `outputs` of a run, and how they split.
  §2  `Along`: runs all of whose steps meet a condition on the state before
      the step; what every step preserves, such a run preserves, and so does
      a relation between the inputs so far and the state (`history_along`).
      Runs that come to an end (`length_along`, `exists_rest`).  What holds in
      all states of a run (`forall_states_iff_along`).
  §3  `simulates_along`: two machines answer alike along a relation.
  §4  `Decided`: some answer of the run is of a given kind.
  §5  `refines_along`, `observes_along`, `seenAs`, `drives_along`: a machine does
      what another one does, with more steps.
  §6  `after_fragments`: texts that can be read in pieces.

Nothing here is about parsers or sessions.
-/
import Mathlib.Algebra.GroupWithZero.Nat
import Mathlib.Data.List.Induction

namespace Acatl.Lib

/-- The answer to an input, and the state after it. -/
abbrev Machine (S I O : Type) := S → I → O × S

namespace Machine

variable {S T I O : Type} (m : Machine S I O) (n : Machine T I O)

/-! ## §1 Runs -/

/-- The state after some inputs. -/
def after : S → List I → S
  | s, [] => s
  | s, i :: is => after (m s i).2 is

/-- The answers to some inputs. -/
def outputs : S → List I → List O
  | _, [] => []
  | s, i :: is => (m s i).1 :: outputs (m s i).2 is

/-- The inputs, each with its answer. -/
def history : S → List I → List (I × O)
  | _, [] => []
  | s, i :: is => (i, (m s i).1) :: history (m s i).2 is

@[simp] theorem after_nil (s : S) : m.after s [] = s := rfl
@[simp] theorem after_cons (s : S) (i : I) (is : List I) :
    m.after s (i :: is) = m.after (m s i).2 is := rfl
@[simp] theorem outputs_nil (s : S) : m.outputs s [] = [] := rfl
@[simp] theorem outputs_cons (s : S) (i : I) (is : List I) :
    m.outputs s (i :: is) = (m s i).1 :: m.outputs (m s i).2 is := rfl

theorem after_append (s : S) (is js : List I) :
    m.after s (is ++ js) = m.after (m.after s is) js := by
  induction is generalizing s with
  | nil => rfl
  | cons i is ih => exact ih _

theorem outputs_append (s : S) (is js : List I) :
    m.outputs s (is ++ js) = m.outputs s is ++ m.outputs (m.after s is) js := by
  induction is generalizing s with
  | nil => rfl
  | cons i is ih => simp [ih]

@[simp] theorem length_outputs (s : S) (is : List I) : (m.outputs s is).length = is.length := by
  induction is generalizing s with
  | nil => rfl
  | cons i is ih => simp [ih]

theorem history_append (s : S) (is js : List I) :
    m.history s (is ++ js) = m.history s is ++ m.history (m.after s is) js := by
  induction is generalizing s with
  | nil => rfl
  | cons i is ih => simp [history, ih]

@[simp] theorem history_inputs (s : S) (is : List I) : (m.history s is).map Prod.fst = is := by
  induction is generalizing s with
  | nil => rfl
  | cons i is ih => simp [history, ih]

/-! ## §2 Invariants -/

/-- Every step of the run meets `cond`. -/
def Along (cond : S → I → Prop) : S → List I → Prop
  | _, [] => True
  | s, i :: is => cond s i ∧ Along cond (m s i).2 is

instance instDecidableAlong (cond : S → I → Prop) [∀ s i, Decidable (cond s i)] :
    ∀ (s : S) (is : List I), Decidable (m.Along cond s is)
  | _, [] => inferInstanceAs (Decidable True)
  | s, i :: is =>
    have := instDecidableAlong cond (m s i).2 is
    inferInstanceAs (Decidable (_ ∧ _))

variable {m n}

theorem along_append {cond : S → I → Prop} {s : S} {is js : List I} :
    m.Along cond s (is ++ js) ↔ m.Along cond s is ∧ m.Along cond (m.after s is) js := by
  induction is generalizing s with
  | nil => simp [Along]
  | cons i is ih => simp [Along, ih, and_assoc]

theorem along_left {cond : S → I → Prop} {s : S} {front is : List I} (h : front <+: is)
    (his : m.Along cond s is) : m.Along cond s front := by
  obtain ⟨back, rfl⟩ := h
  exact (along_append.mp his).1

theorem along_congr {cond cond' : S → I → Prop} (h : ∀ s i, cond s i ↔ cond' s i) {s : S}
    {is : List I} : m.Along cond s is ↔ m.Along cond' s is := by
  induction is generalizing s with
  | nil => exact Iff.rfl
  | cons i is ih => rw [Along, Along, h, ih]

/-- The condition of each step, in the state that the inputs before it lead to. -/
theorem along_iff_steps {cond : S → I → Prop} {s : S} {is : List I} :
    m.Along cond s is ↔ ∀ front i, front ++ [i] <+: is → cond (m.after s front) i := by
  constructor
  · intro his front i h
    exact (along_append.mp (along_left h his)).2.1
  · intro h
    induction is generalizing s with
    | nil => trivial
    | cons i is ih =>
      refine ⟨h [] i (by simp), ih ?_⟩
      intro front j hj
      exact h (i :: front) j (by simpa using hj)

/-- What every step preserves, every run preserves. -/
theorem inv_after (Inv : S → Prop) (hstep : ∀ s i, Inv s → Inv (m s i).2) {s : S} (hs : Inv s)
    (is : List I) : Inv (m.after s is) := by
  induction is generalizing s with
  | nil => exact hs
  | cons i is ih => exact ih (hstep s i hs)

/-- What every step that meets the condition preserves, a run along the
condition preserves. -/
theorem inv_along (Inv : S → Prop) {cond : S → I → Prop}
    (hstep : ∀ s i, Inv s → cond s i → Inv (m s i).2) {s : S} (hs : Inv s) {is : List I}
    (his : m.Along cond s is) : Inv (m.after s is) := by
  induction is generalizing s with
  | nil => exact hs
  | cons i is ih => exact ih (hstep s i hs his.1) his.2

/-- A relation between the inputs so far and the state, along a condition. -/
theorem history_along (H : List I → S → Prop) {cond : S → I → Prop} {s : S} (hs : H [] s)
    (hstep : ∀ is i, H is (m.after s is) → cond (m.after s is) i →
      H (is ++ [i]) (m (m.after s is) i).2)
    {is : List I} (his : m.Along cond s is) : H is (m.after s is) := by
  induction is using List.reverseRecOn with
  | nil => exact hs
  | append_singleton is i ih =>
    obtain ⟨hbefore, hi, -⟩ := along_append.mp his
    rw [after_append]
    exact hstep is i (ih hbefore) hi

/-- A run is not longer than what there was to do at first and what its inputs
add to it, if every step leaves less to do than it found. -/
theorem length_along (Todo : S → Nat → Prop) (cost : I → Nat) {cond : S → I → Prop}
    (hstep : ∀ s i n, Todo s n → cond s i → ∃ k, Todo (m s i).2 k ∧ k + 1 ≤ n + cost i)
    {s : S} {n : Nat} (hs : Todo s n) {is : List I} (his : m.Along cond s is) :
    is.length ≤ n + (is.map cost).sum := by
  induction is generalizing s n with
  | nil => exact Nat.zero_le _
  | cons i is ih =>
    obtain ⟨k, hk, hless⟩ := hstep s i n hs his.1
    have hrest := ih hk his.2
    rw [List.length_cons, List.map_cons, List.sum_cons]
    omega

/-- Steps that add nothing come to an end. -/
theorem exists_rest (Todo : S → Nat → Prop) (own : I → Prop) {cond : S → I → Prop}
    (hstep : ∀ s i n, Todo s n → cond s i → own i → ∃ k, Todo (m s i).2 k ∧ k < n)
    {s : S} {n : Nat} (hs : Todo s n) :
    ∃ is, m.Along cond s is ∧ (∀ i ∈ is, own i) ∧ ∀ i, cond (m.after s is) i → ¬ own i := by
  induction n using Nat.strongRecOn generalizing s with
  | ind n ih =>
    by_cases hnext : ∃ i, cond s i ∧ own i
    · obtain ⟨i, hi, hown⟩ := hnext
      obtain ⟨k, hk, hless⟩ := hstep s i n hs hi hown
      obtain ⟨is, halong, howns, hrest⟩ := ih k hless hk
      exact ⟨i :: is, ⟨hi, halong⟩, List.forall_mem_cons.mpr ⟨hown, howns⟩, hrest⟩
    · exact ⟨[], trivial, by simp, fun i hi hown => hnext ⟨i, hi, hown⟩⟩

/-- From a set of states that no step leaves, every answer is as the steps of
that set answer. -/
theorem forall_outputs (Inv : S → Prop) {P : O → Prop}
    (hstep : ∀ s i, Inv s → P (m s i).1 ∧ Inv (m s i).2) {s : S} (hs : Inv s) (is : List I) :
    ∀ o ∈ m.outputs s is, P o := by
  induction is generalizing s with
  | nil => simp
  | cons i is ih =>
    obtain ⟨hout, hnext⟩ := hstep s i hs
    intro o ho
    rcases List.mem_cons.mp ho with rfl | ho
    · exact hout
    · exact ih hnext o ho

/-- All answers of a run are as wanted exactly when every step meets the
condition, if that is what the condition says of one step. -/
theorem forall_outputs_iff_along (Inv : S → Prop) {P : O → Prop} {cond : S → I → Prop}
    (hstep : ∀ s i, Inv s → (P (m s i).1 ↔ cond s i) ∧ Inv (m s i).2) {s : S} (hs : Inv s)
    (is : List I) : (∀ o ∈ m.outputs s is, P o) ↔ m.Along cond s is := by
  induction is generalizing s with
  | nil => simp [Along]
  | cons i is ih =>
    obtain ⟨hout, hnext⟩ := hstep s i hs
    rw [outputs_cons, List.forall_mem_cons, hout, ih hnext, Along]

/-- What holds at first holds all through a run exactly when every step meets
the condition, if that is what the condition says of one step. -/
theorem forall_states_iff_along (Inv : S → Prop) {P : S → Prop} {ok cond : S → I → Prop}
    (hinv : ∀ s i, Inv s → ok s i → Inv (m s i).2)
    (hstep : ∀ s i, Inv s → ok s i → P s → (P (m s i).2 ↔ cond s i))
    {s : S} (hs : Inv s) (hP : P s) {is : List I} (his : m.Along ok s is) :
    (∀ front, front <+: is → P (m.after s front)) ↔ m.Along cond s is := by
  induction is generalizing s with
  | nil => simpa [Along] using hP
  | cons i is ih =>
    have hone := hstep s i hs his.1 hP
    constructor
    · intro hall
      have hnext : P (m s i).2 := hall [i] (by simp)
      refine ⟨hone.mp hnext, (ih (hinv s i hs his.1) hnext his.2).mp ?_⟩
      intro front hfront
      exact hall (i :: front) (by simpa using hfront)
    · rintro ⟨hi, hrest⟩ front hfront
      have hnext := hone.mpr hi
      rcases List.prefix_cons_iff.mp hfront with rfl | ⟨front', rfl, hfront'⟩
      · exact hP
      · exact (ih (hinv s i hs his.1) hnext his.2).mpr hrest front' hfront'

/-! ## §3 Simulation -/

/-- Two machines answer alike, as far as `seen` shows, as long as the steps of
the first meet the condition. -/
theorem simulates_along {Q : Type} (seen : O → Q) (R : S → T → Prop) {cond : S → I → Prop}
    (hstep : ∀ s t i, R s t → cond s i →
      seen (m s i).1 = seen (n t i).1 ∧ R (m s i).2 (n t i).2)
    {s : S} {t : T} (hst : R s t) {is : List I} (his : m.Along cond s is) :
    (m.outputs s is).map seen = (n.outputs t is).map seen := by
  induction is generalizing s t with
  | nil => rfl
  | cons i is ih =>
    obtain ⟨hout, hnext⟩ := hstep s t i hst his.1
    rw [outputs_cons, outputs_cons, List.map_cons, List.map_cons, hout, ih hnext his.2]

/-- A machine whose answers are a function of the input, as long as its steps
meet the condition. -/
theorem outputs_eq_map_along {cond : S → I → Prop} {f : I → O}
    (hstep : ∀ s i, cond s i → (m s i).1 = f i) {s : S} {is : List I} (his : m.Along cond s is) :
    m.outputs s is = is.map f := by
  induction is generalizing s with
  | nil => rfl
  | cons i is ih => rw [outputs_cons, List.map_cons, hstep s i his.1, ih his.2]

/-! ## §4 The first answer of a kind -/

/-- One of the answers to the inputs is of the kind. -/
def Decided (m : Machine S I O) (kind : O → Prop) (s : S) (is : List I) : Prop :=
  ∃ o ∈ m.outputs s is, kind o

@[simp] theorem not_decided_nil (kind : O → Prop) (s : S) : ¬ m.Decided kind s [] := by
  simp [Decided]

theorem decided_cons {kind : O → Prop} {s : S} {i : I} {is : List I} :
    m.Decided kind s (i :: is) ↔ kind (m s i).1 ∨ m.Decided kind (m s i).2 is := by
  simp [Decided]

instance (m : Machine S I O) (kind : O → Prop) [DecidablePred kind] (s : S) (is : List I) :
    Decidable (m.Decided kind s is) :=
  inferInstanceAs (Decidable (∃ o ∈ m.outputs s is, kind o))

/-! ## §5 Refinement -/

/-- Every step of the first machine is one step of the second, or none, as
`view` tells. What every step preserves, beside the condition that it meets,
can be used for that. -/
theorem refines_along {J Q : Type} {n : Machine T J Q} (abs : S → T) (view : I → Option J)
    (Inv : S → Prop) {cond : S → I → Prop} {cond' : T → J → Prop}
    (hinv : ∀ s i, Inv s → cond s i → Inv (m s i).2)
    (hidle : ∀ s i, Inv s → cond s i → view i = none → abs (m s i).2 = abs s)
    (hstep : ∀ s i j, Inv s → cond s i → view i = some j →
      cond' (abs s) j ∧ abs (m s i).2 = (n (abs s) j).2)
    {s : S} (hs : Inv s) {is : List I} (his : m.Along cond s is) :
    n.Along cond' (abs s) (is.filterMap view) ∧
      n.after (abs s) (is.filterMap view) = abs (m.after s is) := by
  induction is generalizing s with
  | nil => exact ⟨trivial, rfl⟩
  | cons i is ih =>
    obtain ⟨hi, hrest⟩ := his
    obtain ⟨halong, hafter⟩ := ih (hinv s i hs hi) hrest
    cases hview : view i with
    | none =>
      rw [List.filterMap_cons_none hview, ← hidle s i hs hi hview]
      exact ⟨halong, hafter⟩
    | some j =>
      obtain ⟨hcond, hnext⟩ := hstep s i j hs hi hview
      rw [List.filterMap_cons_some hview, after_cons, Along, ← hnext]
      exact ⟨⟨hcond, halong⟩, hafter⟩

/-- What can be seen of the answers, where the steps of the first machine that
are no step of the second show nothing. -/
theorem observes_along {J P Q : Type} {n : Machine T J P} (abs : S → T) (view : I → Option J)
    (seen : O → Option Q) (seen' : P → Option Q) (Inv : S → Prop) {cond : S → I → Prop}
    (hinv : ∀ s i, Inv s → cond s i → Inv (m s i).2)
    (hidle : ∀ s i, Inv s → cond s i → view i = none →
      seen (m s i).1 = none ∧ abs (m s i).2 = abs s)
    (hstep : ∀ s i j, Inv s → cond s i → view i = some j →
      seen (m s i).1 = seen' (n (abs s) j).1 ∧ abs (m s i).2 = (n (abs s) j).2)
    {s : S} (hs : Inv s) {is : List I} (his : m.Along cond s is) :
    (m.outputs s is).filterMap seen =
      (n.outputs (abs s) (is.filterMap view)).filterMap seen' := by
  induction is generalizing s with
  | nil => rfl
  | cons i is ih =>
    obtain ⟨hi, hrest⟩ := his
    have hbehind := ih (hinv s i hs hi) hrest
    cases hview : view i with
    | none =>
      obtain ⟨hquiet, hsame⟩ := hidle s i hs hi hview
      rw [List.filterMap_cons_none hview, outputs_cons, List.filterMap_cons_none hquiet, hbehind,
        hsame]
    | some j =>
      obtain ⟨hout, hnext⟩ := hstep s i j hs hi hview
      rw [List.filterMap_cons_some hview, outputs_cons, outputs_cons, List.filterMap_cons,
        List.filterMap_cons, hout, hbehind, hnext]

/-- The same machine, of which something else is seen. -/
def seenAs {P : Type} (m : Machine S I O) (view : S → I → P) : Machine S I P :=
  fun s i => (view s i, (m s i).2)

@[simp] theorem after_seenAs {P : Type} (view : S → I → P) (s : S) (is : List I) :
    (m.seenAs view).after s is = m.after s is := by
  induction is generalizing s with
  | nil => rfl
  | cons i is ih => exact ih _

theorem along_seenAs {P : Type} (view : S → I → P) {cond : S → I → Prop} {s : S} {is : List I} :
    (m.seenAs view).Along cond s is ↔ m.Along cond s is := by
  induction is generalizing s with
  | nil => exact Iff.rfl
  | cons i is ih => exact and_congr_right fun _ => ih

/-- A machine whose answers show the steps that it makes another one do. -/
theorem drives_along {J P : Type} {n : Machine T J P} (abs : S → T) (seen : O → List J)
    (Inv : S → Prop) {cond : S → I → Prop} {cond' : T → J → Prop}
    (hinv : ∀ s i, Inv s → cond s i → Inv (m s i).2)
    (hstep : ∀ s i, Inv s → cond s i → n.Along cond' (abs s) (seen (m s i).1) ∧
      n.after (abs s) (seen (m s i).1) = abs (m s i).2)
    {s : S} (hs : Inv s) {is : List I} (his : m.Along cond s is) :
    n.Along cond' (abs s) ((m.outputs s is).flatMap seen) ∧
      n.after (abs s) ((m.outputs s is).flatMap seen) = abs (m.after s is) := by
  induction is generalizing s with
  | nil => exact ⟨trivial, rfl⟩
  | cons i is ih =>
    obtain ⟨hcond, hnext⟩ := hstep s i hs his.1
    obtain ⟨halong, hafter⟩ := ih (hinv s i hs his.1) his.2
    rw [outputs_cons, List.flatMap_cons, along_append, after_append, hnext]
    exact ⟨⟨hcond, halong⟩, hafter⟩

/-! ## §6 Pieces of a text -/

/-- A text that is read in one or more pieces leads to the same state as the
text in one piece, if that is so of two pieces. -/
theorem after_fragments {A : Type} {f : List A → I}
    (hmerge : ∀ s front back, (m (m s (f front)).2 (f back)).2 = (m s (f (front ++ back))).2)
    (s : S) (piece : List A) (pieces : List (List A)) :
    m.after s ((piece :: pieces).map f) = (m s (f (piece :: pieces).flatten)).2 := by
  induction pieces generalizing piece with
  | nil => simp
  | cons next pieces ih =>
    have hboth := ih (piece ++ next)
    simp only [List.map_cons, after_cons, List.flatten_cons, List.append_assoc] at hboth ⊢
    rw [hmerge, hboth]

end Machine

end Acatl.Lib

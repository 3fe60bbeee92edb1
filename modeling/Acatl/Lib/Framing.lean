/-
Acatl.Lib.Framing — readers of frames that stand behind each other.

A reader is a machine that takes one letter after the other. What it is to make
of the frames is another machine, `r`, which takes them whole: what it makes of a
frame may depend on the frames before.

  `outputs_eq`   a reader that gets every single frame right gets every beginning
                 of every stream right: nothing is heard of a frame before its
                 last letter, and nothing is lost.

Nothing here is about packets.
-/
import Acatl.Lib.Machine

namespace Acatl.Lib.Framing

variable {S I O T A K M : Type}

/-! ## §1 Whole frames -/

/-- The items whose frames end within the first `n` letters of the stream. -/
def whole (frame : A → List K) : List A → Nat → List A
  | [], _ => []
  | a :: as, n =>
    if (frame a).length ≤ n then a :: whole frame as (n - (frame a).length) else []

section

variable {frame : A → List K}

theorem whole_isPrefix (as : List A) (n : Nat) : whole frame as n <+: as := by
  induction as generalizing n with
  | nil => exact List.prefix_rfl
  | cons a as ih =>
    rw [whole]
    split
    · exact List.cons_prefix_cons.mpr ⟨rfl, ih _⟩
    · exact List.nil_prefix

theorem whole_eq_self {as : List A} {n : Nat} (h : (as.flatMap frame).length ≤ n) :
    whole frame as n = as := by
  induction as generalizing n with
  | nil => rfl
  | cons a as ih =>
    rw [List.flatMap_cons, List.length_append] at h
    rw [whole, if_pos (by omega), ih (by omega)]

/-- More letters, more frames. -/
theorem whole_mono {as : List A} {n k : Nat} (h : n ≤ k) :
    whole frame as n <+: whole frame as k := by
  induction as generalizing n k with
  | nil => exact List.prefix_rfl
  | cons a as ih =>
    rw [whole, whole]
    by_cases hn : (frame a).length ≤ n
    · rw [if_pos hn, if_pos (by omega)]
      exact List.cons_prefix_cons.mpr ⟨rfl, ih (by omega)⟩
    · rw [if_neg hn]
      exact List.nil_prefix

end

/-! ## §2 Readers -/

/-- `m` gets single frames right: `said` is what is heard with an answer, and
`Between t s` relates the two machines between two frames. `Fit` are the items
this is about. -/
def Reads (m : Machine S I O) (said : O → Option M) (letter : I → K) (frame : A → List K)
    (r : Machine T A M) (Fit : A → Prop) (Between : T → S → Prop) : Prop :=
  ∀ ⦃t s a is⦄, Between t s → Fit a → is.map letter = frame a →
    ∃ front last, is = front ++ [last] ∧ (∀ o ∈ m.outputs s front, said o = none) ∧
      said (m (m.after s front) last).1 = some (r t a).1 ∧ Between (r t a).2 (m.after s is)

variable {m : Machine S I O} {said : O → Option M} {letter : I → K} {frame : A → List K}
  {r : Machine T A M} {Fit : A → Prop} {Between : T → S → Prop}

/-- A whole frame is heard once. -/
theorem Reads.one (h : Reads m said letter frame r Fit Between) {t : T} {s : S} {a : A}
    {is : List I} (hbetween : Between t s) (ha : Fit a) (his : is.map letter = frame a) :
    (m.outputs s is).filterMap said = [(r t a).1] := by
  obtain ⟨front, last, rfl, hfront, hlast, -⟩ := h hbetween ha his
  rw [Machine.outputs_append, List.filterMap_append, List.filterMap_eq_nil_iff.mpr hfront,
    Machine.outputs_cons, Machine.outputs_nil, List.nil_append]
  simp [hlast]

/-- Before its last letter nothing is heard of a frame. -/
theorem Reads.part (h : Reads m said letter frame r Fit Between)
    (hletter : Function.Surjective letter) {t : T} {s : S} {a : A} {is : List I}
    (hbetween : Between t s) (ha : Fit a) (his : is.map letter <+: frame a)
    (hlength : is.length < (frame a).length) : (m.outputs s is).filterMap said = [] := by
  -- the rest of the frame, with any inputs that have its letters
  obtain ⟨behind, hbehind⟩ := his
  obtain ⟨more, rfl⟩ : ∃ more : List I, more.map letter = behind :=
    ⟨behind.map (Function.surjInv hletter), by
      rw [List.map_map, (Function.rightInverse_surjInv hletter).comp_eq_id, List.map_id]⟩
  rw [← List.map_append] at hbehind
  obtain ⟨front, last, hsplit, hfront, -⟩ := h hbetween ha hbehind
  have hcount := congrArg List.length hbehind
  have hsize := congrArg List.length hsplit
  simp only [List.length_map, List.length_append, List.length_singleton] at hcount hsize
  have hpart : is <+: front := by
    refine List.prefix_of_prefix_length_le ⟨more, hsplit⟩ (List.prefix_append _ _) ?_
    omega
  obtain ⟨tail, rfl⟩ := hpart
  rw [List.filterMap_eq_nil_iff]
  intro o ho
  exact hfront o (by rw [Machine.outputs_append]; exact List.mem_append_left _ ho)

/-- **What a reader makes of a stream**, wherever it ends: what it is to make of
the frames that are whole. -/
theorem Reads.outputs_eq (h : Reads m said letter frame r Fit Between)
    (hletter : Function.Surjective letter) {as : List A} (has : ∀ a ∈ as, Fit a) {t : T} {s : S}
    (hbetween : Between t s) {is : List I} (his : is.map letter <+: as.flatMap frame) :
    (m.outputs s is).filterMap said = r.outputs t (whole frame as is.length) := by
  induction as generalizing t s is with
  | nil =>
    obtain rfl : is = [] := by simpa using his
    rfl
  | cons a as ih =>
    obtain ⟨ha, has⟩ := List.forall_mem_cons.mp has
    rw [List.flatMap_cons] at his
    rw [whole]
    by_cases hlength : (frame a).length ≤ is.length
    · -- the first frame, and a stream that begins behind it
      have hfirst : frame a <+: is.map letter :=
        List.prefix_of_prefix_length_le (List.prefix_append _ _) his (by simpa using hlength)
      obtain ⟨behind, hbehind⟩ := hfirst
      obtain ⟨first, rest, rfl, hframe, rfl⟩ := List.map_eq_append_iff.mp hbehind.symm
      have hrest : rest.map letter <+: as.flatMap frame := by
        rw [List.map_append, hframe] at his
        exact (List.prefix_append_right_inj _).mp his
      have hsize : (frame a).length = first.length := by rw [← hframe, List.length_map]
      obtain ⟨-, -, -, -, -, hnext⟩ := h hbetween ha hframe
      rw [if_pos hlength, Machine.outputs_append, List.filterMap_append,
        h.one hbetween ha hframe, ih has hnext hrest, Machine.outputs_cons, List.length_append,
        hsize, Nat.add_sub_cancel_left, List.singleton_append]
    · have hpart : is.map letter <+: frame a :=
        List.prefix_of_prefix_length_le his (List.prefix_append _ _) (by simp; omega)
      rw [if_neg hlength, Machine.outputs_nil]
      exact h.part hletter hbetween ha hpart (by omega)

/-- The whole stream. -/
theorem Reads.outputs_all (h : Reads m said letter frame r Fit Between)
    (hletter : Function.Surjective letter) {as : List A} (has : ∀ a ∈ as, Fit a) {t : T} {s : S}
    (hbetween : Between t s) {is : List I} (his : is.map letter = as.flatMap frame) :
    (m.outputs s is).filterMap said = r.outputs t as := by
  have hsize : (as.flatMap frame).length = is.length := by rw [← his, List.length_map]
  rw [h.outputs_eq hletter has hbetween (his ▸ List.prefix_rfl), whole_eq_self (Nat.le_of_eq hsize)]

end Acatl.Lib.Framing

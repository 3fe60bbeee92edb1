/-
Acatl.SplitJoin — `join`, and `split` as the loop that fills its container.

`join` puts a separator BETWEEN two elements, `std::getline` takes one as the END
of an element. The two agree as long as the last element is not empty
(`undoes_iff`); the separator is a C string, which cannot hold a NUL.
-/
import Acatl.StringHelper

namespace Acatl.StringHelper

/-! ## §1 split -/

/-- `std::getline(ss, item, delim)`: the item and what is left in the stream. At
the end of the stream nothing is extracted, and the stream fails. -/
def getline (stream : Text) (delim : UInt8) : Option (Text × Text) :=
  match stream with
  | [] => none
  | stream => some (stream.takeWhile (· ≠ delim), (stream.dropWhile (· ≠ delim)).drop 1)

theorem getline_shorter {stream item rest : Text} {delim : UInt8}
    (h : getline stream delim = some (item, rest)) : rest.length < stream.length := by
  cases stream with
  | nil => cases h
  | cons c cs =>
    obtain ⟨-, rfl⟩ := Prod.mk.inj (Option.some.inj h)
    have hle : ((c :: cs).dropWhile (· ≠ delim)).length ≤ (c :: cs).length :=
      List.length_dropWhile_le _ _
    simp only [List.length_drop, List.length_cons] at hle ⊢
    omega

/-- The loop of `split`, over what is left in the stream. -/
def splitLoop (delim : UInt8) (addEmpty : Bool) (stream : Text) (elems : List Text) :
    List Text :=
  match _h : getline stream delim with
  | none => elems
  | some (item, rest) =>
    splitLoop delim addEmpty rest
      (if addEmpty || item.length ≠ 0 then elems ++ [item] else elems)
termination_by stream.length
decreasing_by exact getline_shorter (by assumption)

/-- `split(s, delim, elems, addEmpty)`: the number of elements, and `elems`, which
is cleared first. -/
def splitInto (s : Text) (delim : UInt8) (_elems : List Text) (addEmpty : Bool := true) :
    Nat × List Text :=
  let elems := splitLoop delim addEmpty s []
  (elems.length, elems)

theorem splitLoop_eq (delim : UInt8) (addEmpty : Bool) (stream : Text) (elems : List Text) :
    splitLoop delim addEmpty stream elems = elems ++ split stream delim addEmpty := by
  fun_induction splitLoop delim addEmpty stream elems with
  | case1 stream elems hnone =>
    cases stream with
    | nil => simp [split]
    | cons c cs => cases hnone
  | case2 stream elems item rest hsome ih =>
    cases stream with
    | nil => cases hsome
    | cons c cs =>
      obtain ⟨rfl, rfl⟩ := Prod.mk.inj (Option.some.inj hsome)
      simp only [dite_eq_ite] at ih
      rw [ih, split, split, Lib.pieces_eq delim (c :: cs) (by simp), List.filter_cons]
      by_cases hadd : (addEmpty || ((c :: cs).takeWhile (· ≠ delim)).length ≠ 0) = true
      · rw [if_pos hadd, if_pos hadd, List.append_assoc, List.singleton_append]
      · rw [if_neg hadd, if_neg hadd]

/-- **The loop gives the pieces**, whatever was in the container. -/
theorem splitInto_eq (s : Text) (delim : UInt8) (elems : List Text) (addEmpty : Bool) :
    splitInto s delim elems addEmpty =
      ((split s delim addEmpty).length, split s delim addEmpty) := by
  simp [splitInto, splitLoop_eq]

/-! ## §2 join -/

/-- What `operator<<` writes of a `const char*`. -/
def cString (s : Text) : Text := s.takeWhile (· ≠ 0)

/-- `join(elems, separator)`: every element but the last goes through the stream
iterator, which puts the separator behind it. -/
def join (elems : List Text) (separator : Text) : Text :=
  match elems with
  | [] => []
  | [elem] => elem
  | elem :: elems =>
    (elem :: elems).dropLast.flatMap (· ++ cString separator) ++
      (elem :: elems).getLastD []

theorem cString_single {d : UInt8} (h : d ≠ 0) : cString [d] = [d] := by
  simp [cString, h]

/-- With a separator all elements but the last end with it. -/
theorem join_append_last {d : UInt8} (h : d ≠ 0) (front : List Text) (last : Text) :
    join (front ++ [last]) [d] = Lib.unpieces d front ++ last := by
  cases front with
  | nil => rfl
  | cons p ps =>
    cases ps with
    | nil => simp [join, cString_single h, Lib.unpieces]
    | cons q qs =>
      have hdrop : (p :: q :: qs ++ [last]).dropLast = p :: q :: qs := List.dropLast_concat
      have hlast : (p :: q :: qs ++ [last]).getLastD [] = last := List.getLastD_concat ..
      rw [List.cons_append, List.cons_append] at hdrop hlast ⊢
      rw [join, hdrop, hlast, cString_single h, Lib.unpieces]
      simp

/-- A NUL separates nothing. -/
theorem join_nul (v : List Text) : join v [0] = v.flatten := by
  match v with
  | [] => rfl
  | [p] => simp [join]
  | p :: q :: qs =>
    have hlast : (p :: q :: qs).getLastD [] = (p :: q :: qs).getLast (by simp) := rfl
    rw [join, hlast]
    · conv_rhs => rw [← List.dropLast_append_getLast (l := p :: q :: qs) (by simp)]
      simp [cString, List.flatMap]
    · simp

/-! ## §3 split after join -/

/-- `split` gives back what was joined, and only what is not empty when empty
elements are not to be added. -/
structure Undoes (d : UInt8) (v : List Text) : Prop where
  all : ∀ out, splitInto (join v [d]) d out = (v.length, v)
  nonempty : ∀ out, (splitInto (join v [d]) d out false).2 = v.filter (· ≠ [])

theorem undoes_iff_split {d : UInt8} {v : List Text} :
    Undoes d v ↔ split (join v [d]) d = v ∧ split (join v [d]) d false = v.filter (· ≠ []) := by
  refine ⟨fun h => ?_, fun h => ?_⟩
  · have hall := h.all []
    have hnonempty := h.nonempty []
    rw [splitInto_eq] at hall hnonempty
    exact ⟨(Prod.mk.inj hall).2, hnonempty⟩
  · refine ⟨fun out => ?_, fun out => ?_⟩
    · rw [splitInto_eq, h.1]
    · rw [splitInto_eq, h.2]

theorem split_eq_pieces (s : Text) (d : UInt8) : split s d = Lib.pieces d s := by
  simp [split]

theorem split_false_eq (s : Text) (d : UInt8) : split s d false = (split s d).filter (· ≠ []) := by
  simp [split]

/-- Terminated pieces, and what is behind the last of them. -/
theorem split_unpieces_append {d : UInt8} (last : Text) :
    ∀ {front : List Text}, (∀ p ∈ front, d ∉ p) →
      split (Lib.unpieces d front ++ last) d = front ++ split last d
  | [], _ => rfl
  | p :: ps, h => by
    have ih : split (Lib.unpieces d ps ++ last) d = ps ++ split last d :=
      split_unpieces_append last fun q hq => h q (by simp [hq])
    have hcut : Lib.unpieces d (p :: ps) ++ last = p ++ d :: (Lib.unpieces d ps ++ last) := by
      simp [Lib.unpieces]
    rw [split_eq_pieces] at ih ⊢
    rw [hcut, Lib.pieces_append_sep (h p (by simp)), ih, List.cons_append]

/-- What is behind the last separator is an element when it is not empty. -/
theorem split_last {d : UInt8} {last : Text} (h : d ∉ last) :
    split last d = if last = [] then [] else [last] := by
  rw [split_eq_pieces]
  split
  · rename_i hnil
    rw [hnil, Lib.pieces_nil]
  · rename_i hne
    exact Lib.pieces_single h hne

/-- **When splitting undoes joining.** The last element is not empty, and the
delimiter is one that a C string can hold unless there is nothing to separate. -/
theorem undoes_iff {d : UInt8} {v : List Text} (hne : v ≠ []) (hfree : ∀ p ∈ v, d ∉ p) :
    Undoes d v ↔ v.getLast? ≠ some [] ∧ (d ≠ 0 ∨ v.length = 1) := by
  rw [undoes_iff_split]
  obtain ⟨front, last, rfl⟩ : ∃ front last, v = front ++ [last] :=
    ⟨_, _, (List.dropLast_append_getLast hne).symm⟩
  have hfront : ∀ p ∈ front, d ∉ p := fun p hp => hfree p (by simp [hp])
  have hlast : d ∉ last := hfree last (by simp)
  by_cases hd : d = 0
  · -- nothing is between two elements, so what comes back is one element at most
    subst hd
    have hjoin : (0 : UInt8) ∉ (front ++ [last]).flatten := by
      rw [List.mem_flatten]
      rintro ⟨p, hp, h0⟩
      exact hfree p hp h0
    rw [join_nul, split_false_eq, split_last hjoin]
    cases front with
    | nil =>
      by_cases hempty : last = []
      · simp [hempty]
      · simp [hempty]
    | cons p ps =>
      refine ⟨fun h => ?_, fun h => by simp at h⟩
      have hlen := congrArg List.length h.1
      split at hlen
      · simp at hlen
      · simp at hlen
  · rw [join_append_last hd, split_false_eq, split_unpieces_append last hfront, split_last hlast]
    by_cases hempty : last = []
    · simp [hempty]
    · simp [hempty, hd]

/-- One separator, and nothing behind it. -/
theorem not_always_undoes :
    ¬ ∀ (d : UInt8) (v : List Text), v ≠ [] → (∀ p ∈ v, d ∉ p) → Undoes d v := by
  intro h
  have hundoes := h 44 [[97], []] (by decide) (by decide)
  exact absurd (undoes_iff_split.mp hundoes).1 (by decide)

/-- Empty elements in front of the last one come back. -/
theorem undoes_empty_first : Undoes 44 [[], [97]] :=
  (undoes_iff (by decide) (by decide)).mpr (by decide)

end Acatl.StringHelper

/-
Acatl.Lib.Pieces — cutting a list at a separator, where a piece ENDS at its
separator: the separator after the last piece may be left out, and a list
that ends with one has no empty piece behind it.

  `pieces`       the pieces, by structural recursion.
  `pieces_eq`    the first piece by `takeWhile`, the rest from what follows.
  `unpieces`     every piece followed by a separator; `pieces` inverts it on
                 pieces without separators (`pieces_unpieces`).
  `pieces_eq_splitOn`
                 the pieces are what `List.splitOn` gives, without the empty
                 part behind a separator at the end.
  `splitOn_around`
                 the part of a list that an element stands in.
  `runs`         the pieces that are not empty.

Nothing here is about topics; `Acatl.Mqtt.TopicLevels` instantiates it.
-/
import Mathlib.Data.List.Basic

namespace Acatl.Lib

variable {α : Type}

/-- Put one element in front of the first piece. -/
def consPiece (a : α) : List (List α) → List (List α)
  | [] => [[a]]
  | p :: ps => (a :: p) :: ps

theorem consPiece_ne_nil (a : α) (ps : List (List α)) : consPiece a ps ≠ [] := by
  cases ps <;> simp [consPiece]

theorem mem_consPiece {a : α} {p : List α} {ps : List (List α)} (h : p ∈ consPiece a ps) :
    p ∈ ps ∨ p = [a] ∨ ∃ q ∈ ps, p = a :: q := by
  cases ps with
  | nil => exact .inr (.inl (by simpa [consPiece] using h))
  | cons q qs =>
    rcases List.mem_cons.mp h with rfl | h
    · exact .inr (.inr ⟨q, by simp, rfl⟩)
    · exact .inl (by simp [h])

theorem intercalate_cons_cons (sep : α) (p q : List α) (ps : List (List α)) :
    [sep].intercalate (p :: q :: ps) = p ++ sep :: [sep].intercalate (q :: ps) := by
  simp [List.intercalate, List.intersperse]

theorem notMem_intercalate {sep a : α} (ha : a ≠ sep) :
    ∀ {ps : List (List α)}, (∀ p ∈ ps, a ∉ p) → a ∉ [sep].intercalate ps
  | [], _ => by simp [List.intercalate]
  | [p], h => by simpa [List.intercalate] using h p (by simp)
  | p :: q :: ps, h => by
    have ih : a ∉ [sep].intercalate (q :: ps) :=
      notMem_intercalate ha fun r hr => h r (List.mem_cons_of_mem _ hr)
    rw [intercalate_cons_cons, List.mem_append, List.mem_cons]
    simp [h p (by simp), ha, ih]

variable [DecidableEq α]

/-- The pieces of a list. -/
def pieces (sep : α) : List α → List (List α)
  | [] => []
  | a :: as => if a = sep then [] :: pieces sep as else consPiece a (pieces sep as)

/-- Every piece followed by a separator. -/
def unpieces (sep : α) (ps : List (List α)) : List α :=
  ps.flatMap (· ++ [sep])

@[simp] theorem pieces_nil (sep : α) : pieces sep [] = [] := rfl

@[simp] theorem pieces_sep_cons (sep : α) (as : List α) :
    pieces sep (sep :: as) = [] :: pieces sep as := by
  simp [pieces]

@[simp] theorem pieces_eq_nil {sep : α} {as : List α} : pieces sep as = [] ↔ as = [] := by
  cases as with
  | nil => simp
  | cons a as =>
    by_cases h : a = sep
    · simp [pieces, h]
    · simp [pieces, h, consPiece_ne_nil]

/-- The first piece runs up to the first separator; the others come from
what follows that separator. -/
theorem pieces_eq (sep : α) : ∀ as : List α, as ≠ [] →
    pieces sep as = as.takeWhile (· ≠ sep) ::
      pieces sep ((as.dropWhile (· ≠ sep)).drop 1)
  | [], h => absurd rfl h
  | a :: as, _ => by
    by_cases h : a = sep
    · simp [pieces, h]
    · cases as with
      | nil => simp [pieces, h, consPiece]
      | cons b bs =>
        have ih := pieces_eq sep (b :: bs) (by simp)
        rw [pieces, if_neg h, ih]
        simp [consPiece, h]

/-- A piece without separator, its separator, and the pieces behind it. -/
theorem pieces_append_sep {sep : α} {p : List α} (hp : sep ∉ p) (as : List α) :
    pieces sep (p ++ sep :: as) = p :: pieces sep as := by
  induction p with
  | nil => simp
  | cons a p ih =>
    have ha : a ≠ sep := fun h => hp (by simp [h])
    have hrest : sep ∉ p := fun h => hp (by simp [h])
    rw [List.cons_append, pieces, if_neg ha, ih hrest, consPiece]

/-- A list without separator is one piece. -/
theorem pieces_single {sep : α} {p : List α} (hp : sep ∉ p) (hne : p ≠ []) :
    pieces sep p = [p] := by
  induction p with
  | nil => exact absurd rfl hne
  | cons a p ih =>
    have ha : a ≠ sep := fun h => hp (by simp [h])
    rw [pieces, if_neg ha]
    cases p with
    | nil => rfl
    | cons b p =>
      rw [ih (fun h => hp (by simp [h])) (by simp)]
      rfl

/-- Two lists with a separator between them: the pieces of the first, perhaps
an empty one, and the pieces of the second. -/
theorem exists_pieces_append (sep : α) (as bs : List α) :
    ∃ front, pieces sep (as ++ sep :: bs) = front ++ pieces sep bs ∧
      (front = pieces sep as ∧ as ≠ [] ∨ front = pieces sep as ++ [[]]) := by
  induction as with
  | nil => exact ⟨[[]], by simp, .inr rfl⟩
  | cons a as ih =>
    obtain ⟨front, hfront, hcases⟩ := ih
    by_cases ha : a = sep
    · subst ha
      refine ⟨[] :: front, by simp [hfront], ?_⟩
      rcases hcases with ⟨rfl, -⟩ | rfl
      · exact .inl (by simp)
      · exact .inr (by simp)
    · rw [List.cons_append, pieces, if_neg ha, hfront, pieces, if_neg ha]
      rcases hcases with ⟨rfl, hne⟩ | rfl
      · have hpieces : pieces sep as ≠ [] := mt pieces_eq_nil.mp hne
        obtain ⟨q, qs, hq⟩ := List.exists_cons_of_ne_nil hpieces
        exact ⟨consPiece a (pieces sep as), by simp [hq, consPiece], .inl ⟨rfl, by simp⟩⟩
      · cases hq : pieces sep as with
        | nil => exact ⟨[[a]], by simp [consPiece], .inl ⟨by simp [consPiece], by simp⟩⟩
        | cons q qs =>
          exact ⟨(a :: q) :: qs ++ [[]], by simp [consPiece], .inr (by simp [consPiece])⟩

theorem pieces_unpieces {sep : α} {ps : List (List α)} (h : ∀ p ∈ ps, sep ∉ p) :
    pieces sep (unpieces sep ps) = ps := by
  induction ps with
  | nil => rfl
  | cons p ps ih =>
    have hp : sep ∉ p := h p (by simp)
    have hps : ∀ q ∈ ps, sep ∉ q := fun q hq => h q (by simp [hq])
    have hcut : unpieces sep (p :: ps) = p ++ sep :: unpieces sep ps := by
      simp [unpieces]
    rw [hcut, pieces_append_sep hp, ih hps]

/-- Pieces with a separator between them, the last of them not empty. -/
theorem pieces_intercalate {sep : α} {ps : List (List α)} (h : ∀ p ∈ ps, sep ∉ p)
    (hlast : ps.getLast? ≠ some []) : pieces sep ([sep].intercalate ps) = ps := by
  induction ps with
  | nil => rfl
  | cons p ps ih =>
    have hp : sep ∉ p := h p (by simp)
    cases ps with
    | nil =>
      have hone : [sep].intercalate [p] = p := by simp [List.intercalate, List.intersperse]
      rw [hone, pieces_single hp (fun hnil => hlast (by simp [hnil]))]
    | cons q ps =>
      rw [intercalate_cons_cons, pieces_append_sep hp, ih (fun r hr => h r (by simp [hr]))]
      simpa using hlast

/-- **Pieces and parts.** `splitOn` has one part more than there are
separators; a separator at the end has an empty part behind it, and no piece. -/
theorem pieces_eq_splitOn (sep : α) : ∀ as : List α, as ≠ [] →
    pieces sep as =
      if as.getLast? = some sep then (as.splitOn sep).dropLast else as.splitOn sep
  | [], h => absurd rfl h
  | [a], _ => by
    by_cases ha : a = sep
    · simp [ha, List.splitOn_cons_eq_if_modifyHead, List.splitOn_nil]
    · simp [ha, pieces, consPiece, List.splitOn_cons_eq_if_modifyHead, List.splitOn_nil]
  | a :: b :: bs, _ => by
    have ih := pieces_eq_splitOn sep (b :: bs) (by simp)
    have hne : pieces sep (b :: bs) ≠ [] := by simp
    obtain ⟨q, qs, hq⟩ := List.exists_cons_of_ne_nil hne
    rw [pieces, List.splitOn_cons_eq_if_modifyHead, List.getLast?_cons_cons]
    rw [hq] at ih ⊢
    by_cases hlast : (b :: bs).getLast? = some sep
    · rw [if_pos hlast] at ih ⊢
      -- there is a part in front of the one that is dropped
      cases hparts : (b :: bs).splitOn sep with
      | nil => simp [hparts] at ih
      | cons r rs =>
        rw [hparts] at ih
        cases rs with
        | nil => simp at ih
        | cons t ts =>
          simp only [List.dropLast_cons_cons, List.cons.injEq] at ih
          by_cases ha : a = sep
          · simp [ha, ih.1, ih.2]
          · simp [ha, consPiece, ih.1, ih.2]
    · rw [if_neg hlast] at ih ⊢
      by_cases ha : a = sep
      · simp [ha, ← ih]
      · simp [ha, consPiece, ← ih]

omit [DecidableEq α] in
/-- What stands before one part, the part, and what stands behind it. -/
theorem intercalate_append_cons (sep : α) (p : List α) (back : List (List α)) :
    ∀ front : List (List α), [sep].intercalate (front ++ p :: back) =
      unpieces sep front ++ p ++ back.flatMap (sep :: ·)
  | [] => by
    induction back generalizing p with
    | nil => simp [unpieces, List.intercalate]
    | cons q qs ih => simpa [intercalate_cons_cons, unpieces] using ih q
  | q :: qs => by
    obtain ⟨r, rs, hr⟩ : ∃ r rs, qs ++ p :: back = r :: rs :=
      List.exists_cons_of_ne_nil (by simp)
    have ih := intercalate_append_cons sep p back qs
    rw [List.cons_append, hr, intercalate_cons_cons, ← hr, ih]
    simp [unpieces]

/-- No part contains the separator. -/
theorem sep_notMem_splitOn {sep : α} : ∀ {as p : List α}, p ∈ as.splitOn sep → sep ∉ p
  | [], p, hp => by
    have hnil : p = [] := by simpa [List.splitOn_nil] using hp
    simp [hnil]
  | a :: as, p, hp => by
    obtain ⟨q, qs, hq⟩ := List.exists_cons_of_ne_nil (List.splitOn_ne_nil sep as)
    rw [List.splitOn_cons_eq_if_modifyHead, hq] at hp
    have ih : ∀ r ∈ q :: qs, sep ∉ r := fun r hr => sep_notMem_splitOn (hq ▸ hr)
    split at hp
    · cases List.mem_cons.mp hp with
      | inl hnil => simp [hnil]
      | inr hp => exact ih p hp
    · rename_i ha
      have ha : sep ≠ a := fun h => ha (by simp [h])
      cases List.mem_cons.mp hp with
      | inl hcons => simp [hcons, ha, ih q (by simp)]
      | inr hp => exact ih p (by simp [hp])

/-- The part that an element stands in: what is behind the last separator
before it, and what is in front of the next one. -/
theorem splitOn_around {sep a : α} (ha : a ≠ sep) (before behind : List α) :
    ∃ front l r back, before = unpieces sep front ++ l ∧
      behind = r ++ back.flatMap (sep :: ·) ∧
      (before ++ a :: behind).splitOn sep = front ++ (l ++ a :: r) :: back := by
  obtain ⟨front, l, hbefore⟩ : ∃ front l, before.splitOn sep = front ++ [l] :=
    ⟨_, _, (List.dropLast_append_getLast (List.splitOn_ne_nil sep before)).symm⟩
  obtain ⟨r, back, hbehind⟩ := List.exists_cons_of_ne_nil (List.splitOn_ne_nil sep behind)
  have hleft : before = unpieces sep front ++ l := by
    have hjoin : [sep].intercalate (before.splitOn sep) = before := List.intercalate_splitOn sep
    rw [hbefore, intercalate_append_cons] at hjoin
    simpa using hjoin.symm
  have hright : behind = r ++ back.flatMap (sep :: ·) := by
    have hjoin : [sep].intercalate (behind.splitOn sep) = behind := List.intercalate_splitOn sep
    rw [← hjoin, hbehind]
    exact intercalate_append_cons sep r back []
  refine ⟨front, l, r, back, hleft, hright, ?_⟩
  have hwhole : before ++ a :: behind = [sep].intercalate (front ++ (l ++ a :: r) :: back) := by
    rw [intercalate_append_cons, hleft, hright]
    simp
  have hfront : ∀ p ∈ front ++ [l], sep ∉ p := fun p hp => sep_notMem_splitOn (hbefore ▸ hp)
  have hback : ∀ p ∈ r :: back, sep ∉ p := fun p hp => sep_notMem_splitOn (hbehind ▸ hp)
  rw [hwhole]
  refine List.splitOn_intercalate sep ?_ (by simp)
  intro p hp
  rw [List.mem_append, List.mem_cons] at hp
  rcases hp with hp | rfl | hp
  · exact hfront p (by simp [hp])
  · simp [hfront l (by simp), hback r (by simp), ha.symm]
  · exact hback p (by simp [hp])

/-- The elements of a piece are elements of the list. -/
theorem mem_of_mem_piece {sep : α} : ∀ {as : List α} {p : List α} {a : α},
    p ∈ pieces sep as → a ∈ p → a ∈ as
  | [], p, a, hp, _ => by simp at hp
  | b :: bs, p, a, hp, ha => by
    rw [pieces] at hp
    split at hp
    · rcases List.mem_cons.mp hp with rfl | hp
      · simp at ha
      · exact List.mem_cons_of_mem _ (mem_of_mem_piece hp ha)
    · rcases mem_consPiece hp with hp | rfl | ⟨q, hq, rfl⟩
      · exact List.mem_cons_of_mem _ (mem_of_mem_piece hp ha)
      · exact List.mem_cons.mpr (.inl (by simpa using ha))
      · rcases List.mem_cons.mp ha with rfl | ha
        · simp
        · exact List.mem_cons_of_mem _ (mem_of_mem_piece hq ha)

/-- No piece contains the separator. -/
theorem sep_notMem_piece {sep : α} : ∀ {as : List α} {p : List α},
    p ∈ pieces sep as → sep ∉ p
  | [], p, hp => by simp at hp
  | b :: bs, p, hp => by
    rw [pieces] at hp
    split at hp
    · rcases List.mem_cons.mp hp with rfl | hp
      · simp
      · exact sep_notMem_piece hp
    · rename_i hb
      have hsep : sep ≠ b := fun h => hb h.symm
      rcases mem_consPiece hp with hp | rfl | ⟨q, hq, rfl⟩
      · exact sep_notMem_piece hp
      · simp [hsep]
      · simp [hsep, sep_notMem_piece hq]

/-! ## Runs -/

/-- The pieces that are not empty: the maximal runs without a separator. -/
def runs (sep : α) (as : List α) : List (List α) := (pieces sep as).filter (· ≠ [])

@[simp] theorem runs_nil (sep : α) : runs sep [] = [] := rfl

@[simp] theorem runs_sep_cons (sep : α) (as : List α) : runs sep (sep :: as) = runs sep as := by
  simp [runs]

theorem runs_append_sep (sep : α) (as bs : List α) :
    runs sep (as ++ sep :: bs) = runs sep as ++ runs sep bs := by
  obtain ⟨front, hpieces, hfront⟩ := exists_pieces_append sep as bs
  rw [runs, hpieces, List.filter_append]
  obtain ⟨rfl, -⟩ | rfl := hfront
  · rfl
  · simp [runs]

theorem runs_single {sep : α} {p : List α} (hp : sep ∉ p) (hne : p ≠ []) : runs sep p = [p] := by
  rw [runs, pieces_single hp hne]
  simp [hne]

/-- Separators at the front are no run. -/
theorem runs_seps_append {sep : α} {seps : List α} (h : ∀ a ∈ seps, a = sep) (as : List α) :
    runs sep (seps ++ as) = runs sep as := by
  induction seps with
  | nil => rfl
  | cons a seps ih =>
    obtain rfl : a = sep := h a (by simp)
    rw [List.cons_append, runs_sep_cons, ih fun b hb => h b (by simp [hb])]

/-- The first run ends where the list does, or at a separator. -/
theorem runs_append {sep : α} {p rest : List α} (hp : sep ∉ p) (hne : p ≠ [])
    (hrest : ∀ a ∈ rest.head?, a = sep) : runs sep (p ++ rest) = p :: runs sep rest := by
  cases rest with
  | nil => rw [List.append_nil, runs_single hp hne, runs_nil]
  | cons a rest =>
    obtain rfl : a = sep := hrest a rfl
    rw [runs_append_sep, runs_single hp hne, runs_sep_cons]
    rfl

theorem mem_runs {sep : α} {as p : List α} (h : p ∈ runs sep as) : p ≠ [] ∧ sep ∉ p := by
  obtain ⟨hp, hne⟩ := List.mem_filter.mp h
  exact ⟨of_decide_eq_true hne, sep_notMem_piece hp⟩

end Acatl.Lib

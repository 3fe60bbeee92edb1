/-
Acatl.Mqtt.FilterValidation — which filters `TopicFilter::validate` accepts.

The rule is about levels (`WellPlaced`): a wildcard is a level of its own, and
`#` the last one. The loop looks at each character with the ones next to it
(`Placed`), and remembers the start of the string as the character 0. A filter
may contain that character, and behind it a wildcard passes for a level of its
own (`HiddenByNul`).

  `wellPlaced_iff`              the rule, by characters.
  `validateFrom_iff`            the loop, by characters.
  `validatesExactly_iff`        the loop follows the rule unless a 0 hides a
                                wildcard that breaks it.
-/
import Acatl.Mqtt.TopicLevels

namespace Acatl.Mqtt

open Acatl.Lib

/-! ## §1 The rule -/

/-- A level with a wildcard is that wildcard, and `#` is the last level. -/
def WellPlaced (text : Bytes) : Prop :=
  ∀ front level back, text.splitOn slash = front ++ level :: back →
    (plusSign ∈ level → level = plusLevel) ∧
    (hashSign ∈ level → level = hashLevel ∧ back = [])

/-- A character, with what is before and behind it. `starts` says behind which
characters a level starts. -/
structure InPlace (starts : Option UInt8 → Prop) (before : Option UInt8) (c : UInt8)
    (behind : Bytes) : Prop where
  plus : c = plusSign → starts before ∧ (behind = [] ∨ behind.head? = some slash)
  hash : c = hashSign → starts before ∧ behind = []

theorem inPlace_iff {starts : Option UInt8 → Prop} {before : Option UInt8} {c : UInt8}
    {behind : Bytes} : InPlace starts before c behind ↔
      (c = plusSign → starts before ∧ (behind = [] ∨ behind.head? = some slash)) ∧
      (c = hashSign → starts before ∧ behind = []) :=
  ⟨fun h => ⟨h.plus, h.hash⟩, fun h => ⟨h.1, h.2⟩⟩

/-- Every character of the text is in place. -/
def Placed (starts : Option UInt8 → Prop) (text : Bytes) : Prop :=
  ∀ before c behind, text = before ++ c :: behind → InPlace starts before.getLast? c behind

/-- A level starts at the start and behind a separator. -/
def LevelStart (before : Option UInt8) : Prop := before = none ∨ before = some slash

/-- What the loop takes for the start of a level. -/
def SeemsLevelStart (before : Option UInt8) : Prop := LevelStart before ∨ before = some 0

/-! ## §2 The rule, by characters -/

/-- No character before the last part but a separator. -/
theorem levelStart_unpieces (front : List Bytes) : LevelStart (unpieces slash front).getLast? := by
  cases hfront : front.reverse with
  | nil => exact .inl (by simp [List.reverse_eq_nil_iff.mp hfront, unpieces])
  | cons p ps =>
    have hcut : front = ps.reverse ++ [p] := by simpa using congrArg List.reverse hfront
    exact .inr (by simp [hcut, unpieces])

theorem head?_flatMap_slash (back : List Bytes) :
    back.flatMap (slash :: ·) = [] ∨ (back.flatMap (slash :: ·)).head? = some slash := by
  cases back <;> simp

theorem eq_nil_of_levelStart {l : Bytes} {front : List Bytes} (hl : slash ∉ l)
    (h : LevelStart (unpieces slash front ++ l).getLast?) : l = [] := by
  by_contra hne
  obtain ⟨init, d, hinit⟩ := List.eq_nil_or_concat l |>.resolve_left hne
  subst hinit
  have hd : d ≠ slash := fun hd => hl (by simp [hd])
  simp [LevelStart, hd] at h

theorem eq_nil_of_head? {r : Bytes} {back : List Bytes} (hr : slash ∉ r)
    (h : r ++ back.flatMap (slash :: ·) = [] ∨
      (r ++ back.flatMap (slash :: ·)).head? = some slash) : r = [] := by
  cases r with
  | nil => rfl
  | cons d r =>
    have hd : d = slash := by simpa using h
    exact absurd (by simp [hd]) hr

/-- **The rule is about each wildcard and its neighbors.** -/
theorem wellPlaced_iff {text : Bytes} : WellPlaced text ↔ Placed LevelStart text := by
  constructor
  · intro h before c behind htext
    by_cases hc : c = slash
    · subst hc
      exact ⟨fun h => absurd h (by decide), fun h => absurd h (by decide)⟩
    · obtain ⟨front, l, r, back, hbefore, hbehind, hsplit⟩ := splitOn_around hc before behind
      obtain ⟨hplus, hhash⟩ := h front (l ++ c :: r) back (htext ▸ hsplit)
      -- a level that is one character has nothing before and nothing behind it
      have halone : ∀ d, l ++ c :: r = [d] → l = [] ∧ r = [] := by
        intro d hd
        cases l <;> simp_all
      refine ⟨fun hc => ?_, fun hc => ?_⟩
      · obtain ⟨hl, hr⟩ := halone _ (hplus (by simp [hc]))
        subst hl hr
        rw [hbefore, hbehind]
        exact ⟨by simpa using levelStart_unpieces front, by simpa using head?_flatMap_slash back⟩
      · obtain ⟨hlevel, hback⟩ := hhash (by simp [hc])
        obtain ⟨hl, hr⟩ := halone _ hlevel
        subst hl hr hback
        rw [hbefore, hbehind]
        exact ⟨by simpa using levelStart_unpieces front, rfl⟩
  · intro h front level back hsplit
    have hmem : level ∈ text.splitOn slash := by simp [hsplit]
    have hlevel : slash ∉ level := sep_notMem_splitOn hmem
    have htext : text = unpieces slash front ++ level ++ back.flatMap (slash :: ·) := by
      rw [← intercalate_append_cons, ← hsplit, List.intercalate_splitOn]
    have hchar : ∀ l c r, level = l ++ c :: r →
        InPlace LevelStart (unpieces slash front ++ l).getLast? c
          (r ++ back.flatMap (slash :: ·)) := by
      intro l c r hcut
      exact h _ _ _ (by rw [htext, hcut]; simp)
    refine ⟨fun hmem => ?_, fun hmem => ?_⟩
    · obtain ⟨l, r, hcut⟩ := List.append_of_mem hmem
      obtain ⟨hstart, hend⟩ := (hchar _ _ _ hcut).plus rfl
      rw [hcut, eq_nil_of_levelStart (fun hl => hlevel (by simp [hcut, hl])) hstart,
        eq_nil_of_head? (fun hr => hlevel (by simp [hcut, hr])) hend]
      rfl
    · obtain ⟨l, r, hcut⟩ := List.append_of_mem hmem
      obtain ⟨hstart, hend⟩ := (hchar _ _ _ hcut).hash rfl
      obtain ⟨hr, hback⟩ := List.append_eq_nil_iff.mp hend
      rw [hcut, eq_nil_of_levelStart (fun hl => hlevel (by simp [hcut, hl])) hstart, hr]
      cases back with
      | nil => exact ⟨rfl, rfl⟩
      | cons p ps => simp at hback

/-! ## §3 The loop, by characters -/

/-- The first character, and the others behind it. -/
theorem forall_cut_cons {P : Option UInt8 → Prop} {previous c : UInt8} {cs : Bytes} :
    (∀ before d behind, c :: cs = before ++ d :: behind →
        InPlace P (some (before.getLast?.getD previous)) d behind) ↔
      InPlace P (some previous) c cs ∧ ∀ before d behind, cs = before ++ d :: behind →
        InPlace P (some (before.getLast?.getD c)) d behind := by
  refine ⟨fun h => ?_, fun h => ?_⟩
  · refine ⟨h [] c cs rfl, fun before d behind hcs => ?_⟩
    have hlast := h (c :: before) d behind (by rw [hcs]; rfl)
    rwa [List.getLast?_cons, Option.getD_some] at hlast
  · obtain ⟨hfirst, hrest⟩ := h
    intro before d behind hcut
    cases before with
    | nil =>
      obtain ⟨rfl, rfl⟩ := List.cons.inj hcut
      exact hfirst
    | cons b before =>
      obtain ⟨rfl, hcs⟩ := List.cons.inj hcut
      rw [List.getLast?_cons, Option.getD_some]
      exact hrest before d behind hcs

/-- The loop behind the character `previous`. -/
theorem validateFrom_iff (text : Bytes) : ∀ (previous : UInt8) (ec : ErrorCode),
    (TopicFilter.validateFrom previous text ec).1 = true ↔
      ∀ before c behind, text = before ++ c :: behind →
        InPlace (fun p => p = some 0 ∨ p = some slash) (some (before.getLast?.getD previous)) c
          behind := by
  induction text with
  | nil =>
    intro previous ec
    simp [TopicFilter.validateFrom]
  | cons c cs ih =>
    intro previous ec
    rw [forall_cut_cons, ← ih c ec, TopicFilter.validateFrom]
    split
    · rename_i hbad
      refine iff_of_false (by simp) fun h => ?_
      have := h.1.plus hbad.1
      simp only [Option.some.injEq] at this
      grind
    · split
      · rename_i hbad
        refine iff_of_false (by simp) fun h => ?_
        have := h.1.hash hbad.1
        simp only [Option.some.injEq] at this
        grind
      · rename_i hplus hhash
        have hchar : InPlace (fun p => p = some 0 ∨ p = some slash) (some previous) c cs := by
          refine ⟨fun hc => ?_, fun hc => ?_⟩
          · simp only [Option.some.injEq]
            grind
          · simp only [Option.some.injEq]
            grind
        exact (and_iff_right hchar).symm

theorem TopicFilter.validate_iff (f : TopicFilter) (ec : ErrorCode) :
    (f.validate ec).1 = true ↔ Placed SeemsLevelStart f.filter := by
  have hstart : ∀ before : Option UInt8,
      (some (before.getD 0) = some 0 ∨ some (before.getD 0) = some slash) ↔
        SeemsLevelStart before := by
    intro before
    cases before <;> simp [SeemsLevelStart, LevelStart, or_comm]
  rw [validate, validateFrom_iff]
  refine forall₃_congr fun before c behind => imp_congr_right fun _ => ?_
  rw [inPlace_iff, inPlace_iff, hstart]

/-! ## §4 Where the loop and the rule differ -/

/-- `validate` accepts the filters that keep the rule, and sets the error code
on the others only. -/
def TopicFilter.ValidatesExactly (f : TopicFilter) : Prop :=
  ∀ ec, ((f.validate ec).1 = true ↔ WellPlaced f.filter) ∧
    ((f.validate ec).1 = true → (f.validate ec).2 = ec) ∧
    ((f.validate ec).1 = false → (f.validate ec).2 = some .invalidTopicFilter)

/-- A wildcard stands behind a 0, and no wildcard breaks the rule in any other
way than by what stands before it being a 0. -/
structure HiddenByNul (text : Bytes) : Prop where
  hidden : ∃ before c behind, text = before ++ 0 :: c :: behind ∧ (c = plusSign ∨ c = hashSign)
  placed : Placed SeemsLevelStart text

/-- **The validation is exact unless a 0 hides a wildcard that is no level.** -/
theorem TopicFilter.validatesExactly_iff (f : TopicFilter) :
    f.ValidatesExactly ↔ ¬ HiddenByNul f.filter := by
  constructor
  · intro h hidden
    obtain ⟨before, c, behind, htext, hc⟩ := hidden.hidden
    have hplaced := wellPlaced_iff.mp ((h none).1.mp ((f.validate_iff none).mpr hidden.placed))
    have hchar := hplaced (before ++ [0]) c behind (by simp [htext])
    have hstart : ¬ LevelStart (before ++ [0]).getLast? := by simp [LevelStart, slash]
    cases hc with
    | inl hc => exact hstart (hchar.plus hc).1
    | inr hc => exact hstart (hchar.hash hc).1
  · intro h ec
    have hec := validateFrom_ec f.filter 0 ec
    refine ⟨?_, fun htrue => ?_, fun hfalse => ?_⟩
    · rw [f.validate_iff, wellPlaced_iff]
      constructor
      · intro hplaced before c behind htext
        have hchar := hplaced before c behind htext
        -- a level that starts behind a 0 would be hidden
        have hlevel : c = plusSign ∨ c = hashSign → SeemsLevelStart before.getLast? →
            LevelStart before.getLast? := by
          intro hc hseems
          refine hseems.resolve_right fun hnul => h ⟨?_, hplaced⟩
          obtain ⟨init, rfl⟩ := List.getLast?_eq_some_iff.mp hnul
          exact ⟨init, c, behind, by simp [htext], hc⟩
        exact ⟨fun hc => ⟨hlevel (.inl hc) (hchar.plus hc).1, (hchar.plus hc).2⟩,
          fun hc => ⟨hlevel (.inr hc) (hchar.hash hc).1, (hchar.hash hc).2⟩⟩
      · intro hplaced before c behind htext
        have hchar := hplaced before c behind htext
        exact ⟨fun hc => ⟨.inl (hchar.plus hc).1, (hchar.plus hc).2⟩,
          fun hc => ⟨.inl (hchar.hash hc).1, (hchar.hash hc).2⟩⟩
    · rw [validate] at htrue ⊢
      rw [hec, if_pos htrue]
    · rw [validate] at hfalse ⊢
      rw [hec, if_neg (by simp [hfalse])]

/-- The filter `"\0+"` is accepted. -/
theorem TopicFilter.accepts_hidden_wildcard :
    ¬ ∀ f : TopicFilter, f.ValidatesExactly := by
  intro h
  have haccepted : (validate ⟨[0, plusSign], .atMostOnce⟩ none).1 = true := by decide
  have hlevel := ((h ⟨[0, plusSign], .atMostOnce⟩ none).1.mp haccepted [] [0, plusSign] []
    (by decide)).1 (by decide)
  exact absurd hlevel (by decide)

end Acatl.Mqtt

/-
Acatl.Mqtt.FilterSemantics — which topics a filter is for, on level lists.

  `Matches`    the rule of MQTT 3.1.1, section 4.7.
  `Fits`       what the nodes of the subscription tree look for: the same,
               except that a final `"#"` needs at least one level.
  `AtParent`   the topics in between: the filter is `u/#` and the topic has
               only the levels of `u`.

`matches_iff` is the exact relation of the three.
-/
import Acatl.Mqtt.TopicLevels
import Mathlib.Data.List.Forall2

namespace Acatl.Mqtt

/-! ## §1 The two relations -/

/-- One level of a filter against one level of a topic name. -/
def LevelMatches (f t : Bytes) : Prop := f = plusLevel ∨ f = t

instance (f t : Bytes) : Decidable (LevelMatches f t) := inferInstanceAs (Decidable (_ ∨ _))

/-- MQTT 3.1.1, 4.7: an ordinary level matches itself, `"+"` exactly one level,
a final `"#"` the parent level and any number of further levels. -/
def Matches : List Bytes → List Bytes → Prop
  | [], [] => True
  | [], _ :: _ => False
  | f :: fs, [] => f = hashLevel ∧ fs = []
  | f :: fs, t :: ts => (f = hashLevel ∧ fs = []) ∨ (LevelMatches f t ∧ Matches fs ts)

/-- `Matches`, with a final `"#"` for one or more levels only. -/
def Fits : List Bytes → List Bytes → Prop
  | [], [] => True
  | [], _ :: _ => False
  | _ :: _, [] => False
  | f :: fs, t :: ts => (f = hashLevel ∧ fs = []) ∨ (LevelMatches f t ∧ Fits fs ts)

/-- The filter ends in `"#"` and the topic is at the level before it. -/
def AtParent (p t : List Bytes) : Prop :=
  ∃ u, p = u ++ [hashLevel] ∧ List.Forall₂ LevelMatches u t

instance decidableMatches : ∀ p t : List Bytes, Decidable (Matches p t)
  | [], [] => .isTrue trivial
  | [], _ :: _ => .isFalse id
  | _ :: _, [] => inferInstanceAs (Decidable (_ ∧ _))
  | _ :: fs, _ :: ts =>
    have := decidableMatches fs ts
    inferInstanceAs (Decidable (_ ∨ _))

@[simp] theorem fits_nil_nil : Fits [] [] := trivial
@[simp] theorem not_fits_nil_cons (t : Bytes) (ts : List Bytes) : ¬ Fits [] (t :: ts) := id
@[simp] theorem not_fits_cons_nil (f : Bytes) (fs : List Bytes) : ¬ Fits (f :: fs) [] := id

theorem fits_cons_cons {f t : Bytes} {fs ts : List Bytes} :
    Fits (f :: fs) (t :: ts) ↔ (f = hashLevel ∧ fs = []) ∨ (LevelMatches f t ∧ Fits fs ts) :=
  Iff.rfl

theorem fits_hash (t : Bytes) (ts : List Bytes) : Fits [hashLevel] (t :: ts) :=
  .inl ⟨rfl, rfl⟩

/-! ## §2 How they differ -/

theorem Fits.length_le : ∀ {p t : List Bytes}, Fits p t → p.length ≤ t.length
  | [], _, _ => by simp
  | _ :: _, [], h => h.elim
  | f :: fs, t :: ts, h => by
    rcases h with ⟨-, rfl⟩ | ⟨-, h⟩
    · simp
    · simpa using h.length_le

/-- Only a final `"#"` makes a filter fit a longer topic. -/
theorem Fits.length_eq : ∀ {p t : List Bytes}, Fits p t → p.getLast? ≠ some hashLevel →
    p.length = t.length
  | [], [], _, _ => rfl
  | [], _ :: _, h, _ => h.elim
  | _ :: _, [], h, _ => h.elim
  | f :: fs, t :: ts, h, hlast => by
    rcases h with ⟨rfl, rfl⟩ | ⟨-, h⟩
    · exact absurd rfl hlast
    · have htail : fs.getLast? ≠ some hashLevel := by
        intro hfs
        cases fs with
        | nil => simp at hfs
        | cons g gs => exact hlast (by rw [List.getLast?_cons_cons]; exact hfs)
      simpa using h.length_eq htail

theorem atParent_nil {p : List Bytes} : AtParent p [] ↔ p = [hashLevel] := by
  constructor
  · rintro ⟨u, rfl, hu⟩
    rw [List.forall₂_nil_right_iff.mp hu]
    rfl
  · rintro rfl
    exact ⟨[], rfl, .nil⟩

theorem atParent_cons_cons {f t : Bytes} {fs ts : List Bytes} :
    AtParent (f :: fs) (t :: ts) ↔ LevelMatches f t ∧ AtParent fs ts := by
  constructor
  · rintro ⟨u, hp, hu⟩
    cases hu with
    | cons hhead htail =>
      obtain ⟨rfl, rfl⟩ := List.cons.inj hp
      exact ⟨hhead, _, rfl, htail⟩
  · rintro ⟨hhead, u, rfl, hu⟩
    exact ⟨f :: u, rfl, .cons hhead hu⟩

/-- **The rule of the standard is what the tree looks for, and the parent
level of a final `"#"` besides.** -/
theorem matches_iff : ∀ p t : List Bytes, Matches p t ↔ Fits p t ∨ AtParent p t
  | [], [] => by simp [Matches]
  | [], _ :: _ => by simp [Matches, AtParent]
  | f :: fs, [] => by simp [Matches, atParent_nil]
  | f :: fs, t :: ts => by
    rw [Matches, fits_cons_cons, atParent_cons_cons, matches_iff fs ts]
    tauto

/-- The parent level has one level too few for the tree. -/
theorem AtParent.not_fits {p t : List Bytes} (h : AtParent p t) : ¬ Fits p t := by
  obtain ⟨u, rfl, hu⟩ := h
  intro hfits
  have hlen := hfits.length_le
  have heq := hu.length_eq
  simp at hlen
  omega

/-! ## §3 The levels a filter can have to match anything -/

/-- The levels that some level of a valid topic name can match. A valid filter
may hold others: past a NUL character `validate` lets a wildcard stand. -/
def Matchable (l : Bytes) : Prop := Plain l ∨ l = plusLevel ∨ l = hashLevel

instance (l : Bytes) : Decidable (Matchable l) := inferInstanceAs (Decidable (_ ∨ _))

theorem matchable_plus : Matchable plusLevel := .inr (.inl rfl)
theorem matchable_hash : Matchable hashLevel := .inr (.inr rfl)
theorem Plain.matchable {l : Bytes} (h : Plain l) : Matchable l := .inl h

theorem Fits.matchable : ∀ {p t : List Bytes}, Fits p t → (∀ l ∈ t, Plain l) →
    ∀ l ∈ p, Matchable l
  | [], _, _, _ => by simp
  | _ :: _, [], h, _ => h.elim
  | f :: fs, t :: ts, h, ht => by
    rcases h with ⟨rfl, rfl⟩ | ⟨hf, h⟩
    · simpa using matchable_hash
    · have hrest := h.matchable fun l hl => ht l (by simp [hl])
      intro l hl
      rcases List.mem_cons.mp hl with rfl | hl
      · rcases hf with rfl | rfl
        · exact matchable_plus
        · exact (ht l (by simp)).matchable
      · exact hrest l hl

/-- The topic level to put under a filter level: `y` where the filter has a
wildcard. -/
def fillIn (y l : Bytes) : Bytes := if Plain l then l else y

theorem plain_fillIn {y : Bytes} (hy : Plain y) (l : Bytes) : Plain (fillIn y l) := by
  unfold fillIn
  split
  · assumption
  · exact hy

/-- Filling in the wildcards of a filter gives a topic it fits. -/
theorem fits_fillIn (y : Bytes) : ∀ {p : List Bytes}, HashLast p → (∀ l ∈ p, Matchable l) →
    Fits p (p.map (fillIn y))
  | [], _, _ => trivial
  | f :: fs, hlast, hm => by
    rw [List.map_cons, fits_cons_cons]
    rcases hm f (by simp) with hf | rfl | rfl
    · refine .inr ⟨.inr ?_, fits_fillIn y hlast.tail fun l hl => hm l (by simp [hl])⟩
      simp [fillIn, hf]
    · exact .inr ⟨.inl rfl, fits_fillIn y hlast.tail fun l hl => hm l (by simp [hl])⟩
    · exact .inl ⟨rfl, hlast.head rfl⟩

theorem levelMatches_fillIn {y : Bytes} {u : List Bytes} (h : ∀ l ∈ u, Plain l ∨ l = plusLevel) :
    List.Forall₂ LevelMatches u (u.map (fillIn y)) := by
  induction u with
  | nil => exact .nil
  | cons l u ih =>
    refine .cons ?_ (ih fun k hk => h k (by simp [hk]))
    rcases h l (by simp) with hl | hl
    · exact .inr (by simp [fillIn, hl])
    · exact .inl hl

/-- Common levels in front of a filter and a topic. -/
theorem fits_append {u v p t : List Bytes} (huv : List.Forall₂ LevelMatches u v)
    (h : Fits p t) : Fits (u ++ p) (v ++ t) := by
  induction huv with
  | nil => exact h
  | cons hl _ ih => exact .inr ⟨hl, ih⟩

end Acatl.Mqtt

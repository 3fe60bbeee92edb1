/-
Acatl.Mqtt.TopicLevels — the levels of a topic as a list, and what the
iterator of `mqtt_topic.h` has to do with it.

`levels text` is the list of levels `TopicHierarchyIterator` enumerates
(`enumerate_begin`). A `Cursor` is a position in such a list: the level
`operator*` returns and the levels still ahead. `IteratorImpl.At` ties an
`impl` object to a cursor, and `nextTopic` on the object is one step of the
cursor (`IteratorImpl.At.nextTopic`). Everything about matching is proved on
cursors; the heap enters only through `CursorAt.increment`.

The last section reads the two `validate` functions as facts about levels.
-/
import Acatl.Lib.Pieces
import Acatl.Mqtt.Topic

namespace Acatl.Mqtt

open Acatl.Lib

/-! ## §1 Cursors -/

/-- A position in a level list. -/
structure Cursor where
  level : Bytes
  ahead : List Bytes

/-- The position of a new iterator. The empty string has one empty level. -/
def Cursor.ofText (text : Bytes) : Cursor :=
  match pieces slash text with
  | [] => ⟨[], []⟩
  | l :: ls => ⟨l, ls⟩

/-- The levels of a topic name or filter. -/
def levels (text : Bytes) : List Bytes :=
  (Cursor.ofText text).level :: (Cursor.ofText text).ahead

theorem levels_of_ne_nil {text : Bytes} (h : text ≠ []) : levels text = pieces slash text := by
  cases hp : pieces slash text with
  | nil => exact absurd (pieces_eq_nil.mp hp) h
  | cons l ls => simp [levels, Cursor.ofText, hp]

theorem levels_nil : levels [] = [[]] := rfl

/-- The `impl` object stands at the cursor. -/
structure IteratorImpl.At (i : IteratorImpl) (c : Cursor) : Prop where
  inside : i.pos ≤ i.text.length
  level : i.current = c.level
  ahead : pieces slash (i.text.drop i.pos) = c.ahead

/-- With no level ahead, `nextTopic` fails and changes nothing. -/
theorem IteratorImpl.At.nextTopic_end {i : IteratorImpl} {l : Bytes} (h : i.At ⟨l, []⟩) :
    i.nextTopic = (false, i) := by
  have hdrop : i.text.drop i.pos = [] := pieces_eq_nil.mp h.ahead
  have hend : i.pos = i.text.length := by
    have := List.drop_eq_nil_iff.mp hdrop
    have := h.inside
    omega
  simp [IteratorImpl.nextTopic, hend]

/-- What the scanning loop of `nextTopic` does at a position before the end:
the branch for a leading separator gives the same level and position. -/
theorem IteratorImpl.nextTopic_scan {i : IteratorImpl} (h : i.pos < i.text.length) :
    i.nextTopic =
      (true, { i with
        current := (i.text.drop i.pos).takeWhile (· ≠ slash)
        pos :=
          let pos := i.pos + ((i.text.drop i.pos).takeWhile (· ≠ slash)).length
          if i.text[pos]? = some slash then pos + 1 else pos }) := by
  have hne : ¬ i.pos = i.text.length := by omega
  rw [IteratorImpl.nextTopic, if_neg hne]
  split
  · rename_i hfirst
    obtain ⟨hpos, hc⟩ := hfirst
    have htext : ∃ cs, i.text = slash :: cs := by
      rw [hpos] at hc
      cases hcs : i.text with
      | nil => simp [hcs] at hc
      | cons c cs => exact ⟨cs, by simpa [hcs] using hc⟩
    obtain ⟨cs, hcs⟩ := htext
    simp [hpos, hcs]
  · rfl

/-- Dropping the first piece and its separator, by position. -/
theorem drop_piece (rest : Bytes) :
    (rest.dropWhile (· ≠ slash)).drop 1 =
      rest.drop (let n := (rest.takeWhile (· ≠ slash)).length
                 if rest[n]? = some slash then n + 1 else n) := by
  have hsplit := List.takeWhile_append_dropWhile (p := (· ≠ slash)) (l := rest)
  generalize htake : rest.takeWhile (· ≠ slash) = taken at hsplit ⊢
  generalize hleft : rest.dropWhile (· ≠ slash) = left at hsplit ⊢
  rw [← hsplit]
  cases left with
  | nil => simp
  | cons c cs =>
    have hc : c = slash := by
      have hhead := List.head?_dropWhile_not (· ≠ slash) rest
      rw [hleft] at hhead
      simpa using hhead
    simp [hc]

/-- With a level ahead, `nextTopic` succeeds and moves the object to it. -/
theorem IteratorImpl.At.nextTopic_cons {i : IteratorImpl} {l m : Bytes} {ms : List Bytes}
    (h : i.At ⟨l, m :: ms⟩) :
    ∃ j, i.nextTopic = (true, j) ∧ j.At ⟨m, ms⟩ := by
  have hne : i.text.drop i.pos ≠ [] := by
    intro hnil
    have := h.ahead
    simp [hnil] at this
  have hlt : i.pos < i.text.length := by
    by_contra hge
    exact hne (List.drop_eq_nil_iff.mpr (by omega))
  have hpieces := h.ahead
  rw [pieces_eq slash _ hne, drop_piece] at hpieces
  have hget : ∀ n, (i.text.drop i.pos)[n]? = i.text[i.pos + n]? := by
    intro n; rw [List.getElem?_drop]
  have hlen : ((i.text.drop i.pos).takeWhile (· ≠ slash)).length ≤ i.text.length - i.pos := by
    have := (List.takeWhile_sublist (· ≠ slash) (l := i.text.drop i.pos)).length_le
    simpa using this
  simp only [List.cons.injEq, List.drop_drop, hget] at hpieces
  obtain ⟨hm, hms⟩ := hpieces
  refine ⟨_, i.nextTopic_scan hlt, ⟨?_, hm, ?_⟩⟩
  · show (let pos := i.pos + ((i.text.drop i.pos).takeWhile (· ≠ slash)).length
          if i.text[pos]? = some slash then pos + 1 else pos) ≤ i.text.length
    dsimp only
    split
    · rename_i hsep
      have := (List.getElem?_eq_some_iff.mp hsep).1
      omega
    · omega
  · rw [← hms]
    show pieces slash (i.text.drop _) = pieces slash (i.text.drop _)
    congr 2
    simp only
    split <;> omega

/-- A new object stands at the first level. -/
theorem IteratorImpl.make_at (text : Bytes) : (IteratorImpl.make text).At (Cursor.ofText text) := by
  cases hp : pieces slash text with
  | nil =>
    have htext : text = [] := pieces_eq_nil.mp hp
    subst htext
    exact ⟨by simp [make, nextTopic], rfl, rfl⟩
  | cons l ls =>
    -- the state before the constructor reads the first level
    have hstart : IteratorImpl.At { text := text, current := [], pos := 0 } ⟨[], l :: ls⟩ :=
      ⟨by simp, rfl, by simpa using hp⟩
    obtain ⟨j, hnext, hj⟩ := hstart.nextTopic_cons
    have hc : Cursor.ofText text = ⟨l, ls⟩ := by simp [Cursor.ofText, hp]
    rw [hc, make, hnext]
    exact hj

/-! ## §2 Iterators in the heap -/

/-- The object at address `p` stands at the cursor. -/
def CursorAt (heap : ImplHeap) (p : ImplPtr) (c : Cursor) : Prop :=
  (heap p).At c

theorem CursorAt.begin (text : Bytes) (p : ImplPtr) (heap : ImplHeap) :
    CursorAt (TopicHierarchyIterator.begin text p heap).2 p (Cursor.ofText text) := by
  simpa [TopicHierarchyIterator.begin, CursorAt] using IteratorImpl.make_at text

/-- At the last level `++` nulls the iterator it is applied to; the shared
object stays at the last level. -/
theorem CursorAt.increment_end {heap : ImplHeap} {p : ImplPtr} {l : Bytes}
    (h : CursorAt heap p ⟨l, []⟩) :
    TopicHierarchyIterator.increment p heap = (none, heap) := by
  simp [TopicHierarchyIterator.increment, h.nextTopic_end]

/-- Before the last level `++` moves the shared object one level on. -/
theorem CursorAt.increment_cons {heap : ImplHeap} {p : ImplPtr} {l m : Bytes} {ms : List Bytes}
    (h : CursorAt heap p ⟨l, m :: ms⟩) :
    ∃ heap', TopicHierarchyIterator.increment p heap = (some p, heap') ∧
      CursorAt heap' p ⟨m, ms⟩ := by
  obtain ⟨j, hnext, hj⟩ := h.nextTopic_cons
  refine ⟨Function.update heap p j, ?_, ?_⟩
  · simp [TopicHierarchyIterator.increment, hnext]
  · simpa [CursorAt] using hj

/-- The levels a loop `for(it = begin(); it != end(); ++it)` sees, with at
most `fuel` passes. -/
def enumerate : Nat → TopicHierarchyIterator → ImplHeap → List Bytes
  | 0, _, _ => []
  | _, none, _ => []
  | fuel + 1, some p, heap =>
    (heap p).current ::
      enumerate fuel (TopicHierarchyIterator.increment p heap).1
        (TopicHierarchyIterator.increment p heap).2

/-- The same loop with its end: `none` if it takes more than `fuel`
comparisons with `end()`. -/
def collect : Nat → TopicHierarchyIterator → ImplHeap → Option (List Bytes)
  | 0, _, _ => none
  | _ + 1, none, _ => some []
  | fuel + 1, some p, heap =>
    (collect fuel (TopicHierarchyIterator.increment p heap).1
      (TopicHierarchyIterator.increment p heap).2).map ((heap p).current :: ·)

theorem collect_at : ∀ (ahead : List Bytes) (level : Bytes) (fuel : Nat) (heap : ImplHeap)
    (p : ImplPtr), CursorAt heap p ⟨level, ahead⟩ → ahead.length + 2 ≤ fuel →
    collect fuel (some p) heap = some (level :: ahead)
  | [], level, fuel + 2, heap, p, h, _ => by
    rw [collect, h.increment_end, h.level]
    rfl
  | m :: ms, level, fuel + 1, heap, p, h, hf => by
    obtain ⟨heap', hinc, hnext⟩ := h.increment_cons
    rw [collect, hinc, h.level,
      collect_at ms m fuel heap' p hnext (by simpa using hf)]
    rfl

/-- A loop that ends has seen what any number of passes sees. -/
theorem enumerate_of_collect : ∀ {fuel : Nat} {it : TopicHierarchyIterator} {heap : ImplHeap}
    {ls : List Bytes}, collect (fuel + 1) it heap = some ls → enumerate fuel it heap = ls
  | fuel, none, heap, ls, h => by
    have hls : ls = [] := by simpa [collect] using h.symm
    cases fuel <;> simp [enumerate, hls]
  | 0, some p, heap, ls, h => by simp [collect] at h
  | fuel + 1, some p, heap, ls, h => by
    rw [collect, Option.map_eq_some_iff] at h
    obtain ⟨rest, hrest, rfl⟩ := h
    rw [enumerate, enumerate_of_collect hrest]

/-- A level list is no longer than its text, the empty text apart. -/
theorem length_pieces_le (sep : UInt8) : ∀ text : Bytes, (pieces sep text).length ≤ text.length
  | [] => by simp
  | c :: cs => by
    have ih := length_pieces_le sep cs
    rw [pieces]
    split
    · simpa using ih
    · cases hp : pieces sep cs with
      | nil => simp [consPiece]
      | cons q qs => rw [hp] at ih; simp [consPiece] at ih ⊢; omega

theorem length_levels_le (text : Bytes) : (levels text).length ≤ text.length + 1 := by
  cases htext : text with
  | nil => simp [levels_nil]
  | cons c cs =>
    rw [levels_of_ne_nil (by simp)]
    have := length_pieces_le slash (c :: cs)
    omega

theorem collect_begin (text : Bytes) (p : ImplPtr) (heap : ImplHeap) (fuel : Nat)
    (hf : text.length + 2 ≤ fuel) :
    collect fuel (TopicHierarchyIterator.begin text p heap).1
      (TopicHierarchyIterator.begin text p heap).2 = some (levels text) := by
  have hlen := length_levels_le text
  refine collect_at _ _ fuel _ p (CursorAt.begin text p heap) ?_
  simp only [levels, List.length_cons] at hlen
  omega

/-- **The iterator enumerates `levels`**, whatever the heap it starts in. -/
theorem enumerate_begin (text : Bytes) (p : ImplPtr) (heap : ImplHeap) (fuel : Nat)
    (hf : text.length + 1 ≤ fuel) :
    enumerate fuel (TopicHierarchyIterator.begin text p heap).1
      (TopicHierarchyIterator.begin text p heap).2 = levels text :=
  enumerate_of_collect (collect_begin text p heap (fuel + 1) (by omega))

/-- A string cut at every separator, without the empty level behind a
separator at its end. -/
def splitLevels (text : Bytes) : List Bytes :=
  if text.getLast? = some slash then (text.splitOn slash).dropLast else text.splitOn slash

theorem levels_eq_splitLevels (text : Bytes) : levels text = splitLevels text := by
  cases htext : text with
  | nil => rfl
  | cons c cs =>
    rw [levels_of_ne_nil (by simp), pieces_eq_splitOn slash _ (by simp), splitLevels]

/-- **Topic levels are enumerated correctly**, for names and for filters: the
loop ends, and it has seen the levels between the separators. -/
theorem iteration_yields_levels (s : Bytes) (qos : QoSLevel) (p : ImplPtr) (heap : ImplHeap) :
    ∃ passes, ∀ fuel, passes ≤ fuel →
      collect fuel ((TopicName.mk s).begin p heap).1 ((TopicName.mk s).begin p heap).2 =
        some (splitLevels s) ∧
      collect fuel ((TopicFilter.mk s qos).begin p heap).1
        ((TopicFilter.mk s qos).begin p heap).2 = some (splitLevels s) := by
  refine ⟨s.length + 2, fun fuel hf => ?_⟩
  rw [← levels_eq_splitLevels]
  exact ⟨collect_begin s p heap fuel hf, collect_begin s p heap fuel hf⟩

example : splitLevels [] = [[]] ∧ splitLevels [slash] = [[]] ∧
    splitLevels [97, slash, slash, 98] = [[97], [], [98]] := by decide

/-! ## §3 What the validations say about levels -/

def TopicFilter.levels (f : TopicFilter) : List Bytes := Mqtt.levels f.filter
def TopicName.levels (t : TopicName) : List Bytes := Mqtt.levels t.name

theorem TopicFilter.levels_ne_nil (f : TopicFilter) : f.levels ≠ [] := List.cons_ne_nil _ _

/-- A level without wildcard characters. -/
def Plain (l : Bytes) : Prop := plusSign ∉ l ∧ hashSign ∉ l

instance (l : Bytes) : Decidable (Plain l) := inferInstanceAs (Decidable (_ ∧ _))

theorem Plain.ne_plusLevel {l : Bytes} (h : Plain l) : l ≠ plusLevel := by
  rintro rfl; exact h.1 (by simp [plusLevel])

theorem Plain.ne_hashLevel {l : Bytes} (h : Plain l) : l ≠ hashLevel := by
  rintro rfl; exact h.2 (by simp [hashLevel])

theorem plusLevel_ne_hashLevel : plusLevel ≠ hashLevel := by decide

/-- The character of a level of a text is a character of the text. -/
theorem mem_of_mem_level {text l : Bytes} {c : UInt8} (hl : l ∈ Mqtt.levels text) (hc : c ∈ l) :
    c ∈ text := by
  cases htext : text with
  | nil => subst htext; simp [levels_nil] at hl; subst hl; simp at hc
  | cons _ _ =>
    rw [levels_of_ne_nil (by simp [htext])] at hl
    rw [← htext]
    exact mem_of_mem_piece hl hc

theorem TopicName.valid_iff (t : TopicName) : t.Valid ↔ Plain t.name := by
  unfold TopicName.Valid TopicName.validate Plain
  split
  · rename_i h
    simp only [List.any_eq_true, Bool.or_eq_true, decide_eq_true_eq] at h
    obtain ⟨c, hc, rfl | rfl⟩ := h <;> simp [hc]
  · rename_i h
    simp only [List.any_eq_true, Bool.or_eq_true, decide_eq_true_eq, not_exists, not_and,
      not_or] at h
    simp only [true_iff]
    exact ⟨fun hc => (h _ hc).1 rfl, fun hc => (h _ hc).2 rfl⟩

/-- The levels of a valid topic name are plain. -/
theorem TopicName.Valid.plain {t : TopicName} (h : t.Valid) : ∀ l ∈ t.levels, Plain l := by
  have ht := (TopicName.valid_iff t).mp h
  intro l hl
  exact ⟨fun hc => ht.1 (mem_of_mem_level hl hc), fun hc => ht.2 (mem_of_mem_level hl hc)⟩

/-- A path in which `"#"` can only be the last level. -/
def HashLast (path : List Bytes) : Prop :=
  ∀ u v, path = u ++ hashLevel :: v → v = []

theorem HashLast.tail {l : Bytes} {ls : List Bytes} (h : HashLast (l :: ls)) : HashLast ls :=
  fun u v e => h (l :: u) v (by simp [e])

theorem HashLast.append_right {u v : List Bytes} (h : HashLast (u ++ v)) : HashLast v :=
  fun u' v' e => h (u ++ u') v' (by simp [e])

theorem HashLast.head {l : Bytes} {ls : List Bytes} (h : HashLast (l :: ls))
    (hl : l = hashLevel) : ls = [] :=
  h [] ls (by simp [hl])

theorem hashLast_single (l : Bytes) : HashLast [l] := by
  intro u v e
  cases u with
  | nil => exact (List.cons.inj e).2.symm
  | cons _ u => simp at e

theorem hashLast_cons_cons {l m : Bytes} {ms : List Bytes} :
    HashLast (l :: m :: ms) ↔ l ≠ hashLevel ∧ HashLast (m :: ms) := by
  constructor
  · intro h
    exact ⟨fun hl => List.cons_ne_nil m ms (h.head hl), h.tail⟩
  · intro ⟨hl, h⟩ u v e
    cases u with
    | nil => exact absurd (List.cons.inj e).1 hl
    | cons _ u => exact h u v (List.cons.inj e).2

/-- Past the validation, a `'#'` stands at the very end. -/
theorem validateFrom_hash : ∀ (text : Bytes) (previous : UInt8) (ec : ErrorCode),
    (TopicFilter.validateFrom previous text ec).1 = true → HashLast (pieces slash text)
  | [], _, _, _ => by intro u v e; simp at e
  | c :: cs, previous, ec, h => by
    rw [TopicFilter.validateFrom] at h
    split at h
    · simp at h
    · split at h
      · simp at h
      · rename_i hhash
        have ih := validateFrom_hash cs c ec h
        rw [pieces]
        split
        · intro u v e
          cases u with
          | nil => simp [hashLevel] at e
          | cons _ u => exact ih u v (by simpa using (List.cons.inj e).2)
        · cases hp : pieces slash cs with
          | nil =>
            intro u v e
            cases u with
            | nil => simpa [consPiece] using (List.cons.inj e).2.symm
            | cons _ u => simp [consPiece] at e
          | cons q qs =>
            intro u v e
            cases u with
            | nil =>
              -- the level `c :: q` is `"#"`, so `c` is the last character
              have hc : c = hashSign := by
                have := (List.cons.inj e).1
                simp [hashLevel] at this
                exact this.1
              have hne : cs ≠ [] := by intro hnil; simp [hnil] at hp
              exact absurd ⟨hc, Or.inr hne⟩ hhash
            | cons _ u =>
              have hqs : qs = u ++ hashLevel :: v := (List.cons.inj e).2
              exact ih (q :: u) v (by rw [hp, hqs]; rfl)

/-- In a valid filter only the last level can be `"#"`. -/
theorem TopicFilter.Valid.hashLast {f : TopicFilter} (h : f.Valid) : HashLast f.levels := by
  unfold TopicFilter.levels
  cases htext : f.filter with
  | nil =>
    intro u v e
    cases u <;> simp [levels_nil, hashLevel] at e
  | cons c cs =>
    rw [levels_of_ne_nil (by simp)]
    refine validateFrom_hash _ 0 none ?_
    rw [← htext]
    exact h

/-! ## §4 Texts for given levels -/

/-- A topic name with the given levels. -/
def TopicName.ofLevels (ls : List Bytes) : TopicName := ⟨unpieces slash ls⟩

theorem TopicName.levels_ofLevels {ls : List Bytes} (hne : ls ≠ []) (h : ∀ l ∈ ls, slash ∉ l) :
    (TopicName.ofLevels ls).levels = ls := by
  have htext : unpieces slash ls ≠ [] := by
    cases ls with
    | nil => exact absurd rfl hne
    | cons l ls => simp [unpieces]
  rw [TopicName.levels, TopicName.ofLevels, levels_of_ne_nil htext, pieces_unpieces h]

theorem TopicName.valid_ofLevels {ls : List Bytes} (h : ∀ l ∈ ls, Plain l) :
    (TopicName.ofLevels ls).Valid := by
  rw [TopicName.valid_iff]
  simp only [TopicName.ofLevels, unpieces, Plain, List.mem_flatMap, List.mem_append,
    List.mem_singleton, not_exists, not_and, not_or]
  exact ⟨fun l hl => ⟨(h l hl).1, by decide⟩, fun l hl => ⟨(h l hl).2, by decide⟩⟩

/-- No level of a text contains the separator. -/
theorem slash_notMem_level {text l : Bytes} (hl : l ∈ Mqtt.levels text) : slash ∉ l := by
  cases htext : text with
  | nil => subst htext; simp [levels_nil] at hl; simp [hl]
  | cons _ _ =>
    rw [levels_of_ne_nil (by simp [htext])] at hl
    exact sep_notMem_piece hl

end Acatl.Mqtt

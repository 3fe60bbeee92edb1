/-
Acatl.Net.QueryRoundTrip — which query strings `HttpQueryParameter` reads back.

A query string is built from entries by percent-encoding names and values. As
the constructor decodes before it splits, an encoded `'&'` or `'='` becomes
structure: the entries come back just when no name has one of them in it and no
value has an `'&'` (`query_roundTrips_iff`).
-/
import Mathlib.Data.List.Forall2
import Mathlib.Data.List.TakeWhile
import Acatl.Net.QueryParameter

namespace Acatl.Net

open StringHelper

/-! ## §1 Encoding -/

/-- The unreserved characters: letters, digits, `-`, `.`, `_` and `~`. -/
def Unreserved (b : UInt8) : Prop :=
  (65 ≤ b ∧ b ≤ 90) ∨ (97 ≤ b ∧ b ≤ 122) ∨ (48 ≤ b ∧ b ≤ 57) ∨ b = 45 ∨ b = 46 ∨ b = 95 ∨ b = 126

instance (b : UInt8) : Decidable (Unreserved b) := inferInstanceAs (Decidable (_ ∨ _))

/-- What stands for a byte: an unreserved character for itself, `'+'` for a
space, and two hexadecimal digits behind a `'%'` for any byte. -/
inductive EncodesByte : UInt8 → Text → Prop
  | plain {b : UInt8} (h : Unreserved b) : EncodesByte b [b]
  | plus : EncodesByte 32 [43]
  | escape {b hi lo : UInt8} {x y : Nat} (hhi : hexValue hi = some x) (hlo : hexValue lo = some y)
      (h : b.toNat = 16 * x + y) : EncodesByte b [37, hi, lo]

/-- What stands for a string. -/
inductive Encodes : Text → Text → Prop
  | nil : Encodes [] []
  | cons {b : UInt8} {bytes code text : Text} (hb : EncodesByte b code) (h : Encodes bytes text) :
      Encodes (b :: bytes) (code ++ text)

/-- `name=value`, encoded. -/
def EncodesEntry (entry : Text × Text) (item : Text) : Prop :=
  ∃ name value, Encodes entry.1 name ∧ Encodes entry.2 value ∧ item = name ++ 61 :: value

/-- A query string for entries. -/
def EncodesQuery (entries : List (Text × Text)) (query : Text) : Prop :=
  ∃ items, List.Forall₂ EncodesEntry entries items ∧ query = [38].intercalate items

/-! ## §2 Decoding -/

theorem hexValue_ne {c d : UInt8} {x : Nat} (h : hexValue c = some x) (hd : hexValue d = none) :
    c ≠ d := by
  intro heq
  rw [heq, hd] at h
  cases h

theorem isSpace_of_hexValue {c : UInt8} {x : Nat} (h : hexValue c = some x) :
    isSpace c = false := by
  have hspace := hexValue_ne h (show hexValue 32 = none by decide)
  have hlow : ¬ c ≤ 13 := by
    intro hle
    have hnone : hexValue c = none := by
      have hle' : c.toNat ≤ 13 := UInt8.le_iff_toNat_le.mp hle
      have hdigit (n : UInt8) (hn : 13 < n.toNat) : ¬ n ≤ c := by
        intro hge
        have := UInt8.le_iff_toNat_le.mp hge
        omega
      simp [hexValue, hdigit 48 (by decide), hdigit 65 (by decide), hdigit 97 (by decide)]
    rw [hnone] at h
    cases h
  simp [isSpace, hspace, hlow]

/-- Two digits are read as one number. -/
theorem extractHex_digits {hi lo : UInt8} {x y : Nat} (hhi : hexValue hi = some x)
    (hlo : hexValue lo = some y) : extractHex [hi, lo] = some ((16 * x + y : Nat) : Int) := by
  have hspace := isSpace_of_hexValue hhi
  have hplus := hexValue_ne hhi (show hexValue 43 = none by decide)
  have hminus := hexValue_ne hhi (show hexValue 45 = none by decide)
  have hx := hexValue_ne hlo (show hexValue 120 = none by decide)
  have hX := hexValue_ne hlo (show hexValue 88 = none by decide)
  simp [extractHex, hspace, hplus, hminus, skipPrefix, hx, hX, hexDigits, hhi, hlo, Nat.mul_comm x]

theorem decode_cons {c : UInt8} (hpercent : c ≠ 37) (rest : Text) :
    decode (c :: rest) = ((decode rest).1, (if c = 43 then 32 else c) :: (decode rest).2) := by
  match rest with
  | [] => by_cases hplus : c = 43 <;> simp [decode, hpercent, hplus]
  | [d] => by_cases hplus : c = 43 <;> simp [decode, hpercent, hplus]
  | hi :: lo :: rest => by_cases hplus : c = 43 <;> simp [decode, hpercent, hplus]

theorem decode_plain {c : UInt8} (hpercent : c ≠ 37) (hplus : c ≠ 43) (rest : Text) :
    decode (c :: rest) = ((decode rest).1, c :: (decode rest).2) := by
  rw [decode_cons hpercent, if_neg hplus]

theorem ofInt_natCast (n : Nat) : UInt8.ofInt (n : Int) = UInt8.ofNat n := by
  have hmod : ((n : Int) % 2 ^ 8).toNat = n % 2 ^ 8 := by omega
  rw [UInt8.ofInt, hmod, UInt8.ofNat_mod_size]

theorem decode_encodesByte {b : UInt8} {code : Text} (h : EncodesByte b code) (rest : Text) :
    decode (code ++ rest) = ((decode rest).1, b :: (decode rest).2) := by
  cases h with
  | plain hb =>
    have hne (c : UInt8) (hc : ¬ Unreserved c) : b ≠ c := fun heq => hc (heq ▸ hb)
    exact decode_plain (hne 37 (by decide)) (hne 43 (by decide)) rest
  | plus => exact decode_cons (by decide) rest
  | escape hhi hlo hb =>
    rw [List.cons_append, List.cons_append, List.cons_append, List.nil_append, decode, if_pos rfl,
      extractHex_digits hhi hlo, ← hb]
    simp only [ofInt_natCast, UInt8.ofNat_toNat]

theorem decode_encodes {bytes text : Text} (h : Encodes bytes text) (rest : Text) :
    decode (text ++ rest) = ((decode rest).1, bytes ++ (decode rest).2) := by
  induction h with
  | nil => rfl
  | cons hb h ih => rw [List.append_assoc, decode_encodesByte hb, ih, List.cons_append]

/-- `name=value`, as it is. -/
def rawItem (entry : Text × Text) : Text := entry.1 ++ 61 :: entry.2

theorem decode_item {entry : Text × Text} {item : Text} (h : EncodesEntry entry item)
    (rest : Text) :
    decode (item ++ rest) = ((decode rest).1, rawItem entry ++ (decode rest).2) := by
  obtain ⟨name, value, hname, hvalue, rfl⟩ := h
  rw [List.append_assoc, List.cons_append, decode_encodes hname,
    decode_plain (by decide) (by decide), decode_encodes hvalue]
  simp [rawItem]

/-- Decoding gives the entries as they are, with the separators. -/
theorem decode_query {entries : List (Text × Text)} {items : List Text}
    (h : List.Forall₂ EncodesEntry entries items) :
    decode ([38].intercalate items) = (true, [38].intercalate (entries.map rawItem)) := by
  induction h with
  | nil => rfl
  | @cons entry item entries items hitem h ih =>
    cases h with
    | nil =>
      have hone := decode_item hitem []
      simpa [List.intercalate, decode] using hone
    | cons hnext h =>
      rw [List.map_cons, List.map_cons, Lib.intercalate_cons_cons, Lib.intercalate_cons_cons,
        decode_item hitem, decode_plain (by decide) (by decide), ih, List.map_cons]

/-! ## §3 The parameters -/

namespace HttpQueryParameter

theorem find_assign (q : HttpQueryParameter) (name value other : Text) :
    (q.assign name value).find other = if name = other then some value else q.find other := by
  rw [find, assign, List.find?_cons]
  by_cases heq : name = other
  · simp [heq]
  · rw [if_neg heq]
    simp only [heq, decide_false, find, List.find?_filter]
    congr 2
    funext e
    by_cases he : e.1 = other
    · have hne : e.1 ≠ name := fun h => heq (h.symm.trans he)
      simp [he, Ne.symm heq]
    · simp [he]

theorem addParameter_item {entry : Text × Text} (h : (61 : UInt8) ∉ entry.1)
    (q : HttpQueryParameter) : q.addParameter (rawItem entry) = q.assign entry.1 entry.2 := by
  have hne : ∀ c ∈ entry.1, decide (c ≠ 61) = true := by
    intro c hc
    have hc' : c ≠ 61 := fun heq => h (heq ▸ hc)
    simpa using hc'
  rw [addParameter, if_pos (by simp [rawItem]), rawItem, List.takeWhile_append_of_pos hne,
    List.dropWhile_append_of_pos hne]
  simp

/-- Entries with different names are found again, and nothing else is new. -/
theorem find_entries {entries : List (Text × Text)} (hnodup : (entries.map Prod.fst).Nodup)
    (hname : ∀ e ∈ entries, (61 : UInt8) ∉ e.1) (q : HttpQueryParameter) :
    (∀ e ∈ entries, ((entries.map rawItem).foldl addParameter q).find e.1 = some e.2) ∧
      ∀ name ∉ entries.map Prod.fst,
        ((entries.map rawItem).foldl addParameter q).find name = q.find name := by
  induction entries generalizing q with
  | nil => simp
  | cons entry entries ih =>
    obtain ⟨hnotin, hnodup⟩ := List.nodup_cons.mp hnodup
    obtain ⟨hfound, hother⟩ := ih hnodup (fun e he => hname e (by simp [he]))
      (q.assign entry.1 entry.2)
    rw [List.map_cons, List.foldl_cons, addParameter_item (hname entry (by simp))]
    refine ⟨fun e he => ?_, fun name hmem => ?_⟩
    · obtain rfl | he := List.mem_cons.mp he
      · rw [hother _ hnotin, find_assign, if_pos rfl]
      · exact hfound e he
    · rw [List.map_cons, List.mem_cons, not_or] at hmem
      rw [hother _ hmem.2, find_assign, if_neg (Ne.symm hmem.1)]

/-- What a name and a value of a parameter never have in them. -/
def Separated (q : HttpQueryParameter) : Prop :=
  ∀ e ∈ q.parameters, (38 : UInt8) ∉ e.1 ∧ (61 : UInt8) ∉ e.1 ∧ (38 : UInt8) ∉ e.2

theorem Separated.addParameter {q : HttpQueryParameter} (h : q.Separated) {s : Text}
    (hs : (38 : UInt8) ∉ s) : (q.addParameter s).Separated := by
  rw [HttpQueryParameter.addParameter]
  split
  · intro e he
    obtain rfl | he := List.mem_cons.mp he
    · refine ⟨fun hmem => hs ((List.takeWhile_sublist _).subset hmem), fun hmem => ?_,
        fun hmem => ?_⟩
      · have hfalse := List.mem_takeWhile_imp hmem
        simp at hfalse
      · exact hs ((List.dropWhile_sublist _).subset ((List.drop_sublist _ _).subset hmem))
    · exact h e (List.mem_of_mem_filter he)
  · exact h

theorem separated_construct {query : Text} {q : HttpQueryParameter}
    (h : construct query = .ok q) : q.Separated := by
  rw [construct] at h
  split at h
  · cases h
  · rename_i decoded _
    cases h
    have hpieces : ∀ s ∈ split decoded 38, (38 : UInt8) ∉ s :=
      fun s hs => Lib.sep_notMem_piece (List.mem_of_mem_filter hs)
    have hfold (items : List Text) (hitems : ∀ s ∈ items, (38 : UInt8) ∉ s)
        (q : HttpQueryParameter) (hq : q.Separated) :
        (items.foldl HttpQueryParameter.addParameter q).Separated := by
      induction items generalizing q with
      | nil => exact hq
      | cons s items ih =>
        exact ih (fun r hr => hitems r (by simp [hr])) _ (hq.addParameter (hitems s (by simp)))
    exact hfold _ hpieces _ (fun e he => by cases he)

theorem mem_of_find {q : HttpQueryParameter} {name value : Text} (h : q.find name = some value) :
    (name, value) ∈ q.parameters := by
  obtain ⟨e, he, hvalue⟩ := Option.map_eq_some_iff.mp h
  have hname : e.1 = name := by simpa using List.find?_some he
  have hmem := List.mem_of_find?_eq_some he
  rwa [← hname, ← hvalue]

end HttpQueryParameter

/-! ## §4 The round trip -/

/-- The query string is read, and what is read are the entries. -/
def RoundTrips (entries : List (Text × Text)) (query : Text) : Prop :=
  ∃ q, HttpQueryParameter.construct query = .ok q ∧
    (∀ name, q.hasParameter name = true ↔ name ∈ entries.map Prod.fst) ∧
    ∀ e ∈ entries, q.parameter e.1 = .ok e.2

/-- **A query string is read back exactly if no name of an entry has an `'&'` or an
`'='` in it, and no value an `'&'`.** -/
theorem query_roundTrips_iff (entries : List (Text × Text)) (query : Text)
    (hnodup : (entries.map Prod.fst).Nodup) (hquery : EncodesQuery entries query) :
    RoundTrips entries query ↔
      ∀ e ∈ entries, (38 : UInt8) ∉ e.1 ∧ (61 : UInt8) ∉ e.1 ∧ (38 : UInt8) ∉ e.2 := by
  obtain ⟨items, hitems, rfl⟩ := hquery
  constructor
  · intro h e he
    obtain ⟨q, hconstruct, -, hvalues⟩ := h
    have hvalue := hvalues e he
    rw [HttpQueryParameter.parameter] at hvalue
    split at hvalue
    · cases hvalue
    · rename_i value hfind
      cases hvalue
      exact HttpQueryParameter.separated_construct hconstruct _
        (HttpQueryParameter.mem_of_find hfind)
  · intro h
    have hsplit : split ([38].intercalate (entries.map rawItem)) 38 = entries.map rawItem := by
      rw [split, Lib.pieces_intercalate]
      · simp
      · intro s hs
        obtain ⟨e, he, rfl⟩ := List.mem_map.mp hs
        obtain ⟨hname, -, hvalue⟩ := h e he
        simp [rawItem, hname, hvalue]
      · intro hlast
        obtain ⟨e, -, hraw⟩ := List.mem_map.mp (List.mem_of_getLast? hlast)
        simp [rawItem] at hraw
    obtain ⟨hfound, hother⟩ :=
      HttpQueryParameter.find_entries hnodup (fun e he => (h e he).2.1) {}
    refine ⟨(entries.map rawItem).foldl HttpQueryParameter.addParameter {}, ?_, fun name => ?_,
      fun e he => ?_⟩
    · simp only [HttpQueryParameter.construct, decode_query hitems, hsplit]
    · rw [HttpQueryParameter.hasParameter]
      constructor
      · intro hsome
        by_contra hnot
        rw [hother name hnot] at hsome
        cases hsome
      · intro hmem
        obtain ⟨e, he, rfl⟩ := List.mem_map.mp hmem
        rw [hfound e he]
        rfl
    · rw [HttpQueryParameter.parameter, hfound e he]

/-- `a=b+%3d`, for a value `b =`. -/
theorem query_roundTrips_iff_sample :
    RoundTrips [([97], [98, 32, 61])] [97, 61, 98, 43, 37, 51, 100] ↔
      ∀ e ∈ [(([97] : Text), ([98, 32, 61] : Text))],
        (38 : UInt8) ∉ e.1 ∧ (61 : UInt8) ∉ e.1 ∧ (38 : UInt8) ∉ e.2 := by
  have hname : Encodes [97] [97] := .cons (.plain (by decide)) .nil
  have hsign : EncodesByte 61 [37, 51, 100] :=
    .escape (show hexValue 51 = some 3 by decide) (show hexValue 100 = some 13 by decide)
      (by decide)
  have hvalue : Encodes [98, 32, 61] [98, 43, 37, 51, 100] :=
    .cons (.plain (by decide)) (.cons .plus (.cons hsign .nil))
  exact query_roundTrips_iff _ _ (by decide) ⟨_, .cons ⟨_, _, hname, hvalue, rfl⟩ .nil, rfl⟩

/-- `a=%26`, for a value `&`. -/
theorem not_always_roundTrips :
    ¬ ∀ (entries : List (Text × Text)) (query : Text), (entries.map Prod.fst).Nodup →
      EncodesQuery entries query → RoundTrips entries query := by
  intro h
  have hname : Encodes [97] [97] := .cons (.plain (by decide)) .nil
  have hamp : EncodesByte 38 [37, 50, 54] :=
    .escape (show hexValue 50 = some 2 by decide) (show hexValue 54 = some 6 by decide) (by decide)
  have hquery : EncodesQuery [([97], [38])] [97, 61, 37, 50, 54] :=
    ⟨_, .cons ⟨_, _, hname, .cons hamp .nil, rfl⟩ .nil, rfl⟩
  obtain ⟨q, hconstruct, -, hvalues⟩ := h _ _ (by decide) hquery
  have hread : HttpQueryParameter.construct [97, 61, 37, 50, 54] = .ok ⟨[([97], [])]⟩ := by decide
  cases hconstruct.symm.trans hread
  exact absurd (hvalues ([97], [38]) (by simp)) (by decide)

end Acatl.Net

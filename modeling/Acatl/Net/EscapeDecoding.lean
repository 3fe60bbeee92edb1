/-
Acatl.Net.EscapeDecoding — which strings `StringHelper::decode` accepts.

The two characters behind a `'%'` go through the extraction of a number. That
reads two digits as they are meant, but also a digit behind a space or a sign,
and a digit in front of anything else but the `x` of a prefix (`Loose`).

  `extractHex_isSome`      what the extraction accepts.
  `decodesExactly_iff`     `decode` is exact unless it accepts an escape that
                           is none.
-/
import Acatl.Net.QueryRoundTrip

namespace Acatl.StringHelper

open Net

/-! ## §1 The rule -/

/-- Two hexadecimal digits. -/
def TwoDigits (hi lo : UInt8) : Prop := (hexValue hi).isSome ∧ (hexValue lo).isSome

/-- The string with its escapes replaced, each of which has two digits. -/
def strictDecode : Text → Option Text
  | [] => some []
  | c :: rest =>
    if c = 37 then
      match rest with
      | hi :: lo :: rest =>
        match hexValue hi, hexValue lo with
        | some x, some y => (strictDecode rest).map (UInt8.ofNat (16 * x + y) :: ·)
        | _, _ => none
      | _ => none
    else if c = 43 then (strictDecode rest).map (32 :: ·)
    else (strictDecode rest).map (c :: ·)

/-- What stands behind the `'%'`s of a string, as it is read from the left: two
characters each, but perhaps fewer at the end. -/
def escapes : Text → List Text
  | [] => []
  | c :: rest =>
    if c = 37 then
      match rest with
      | hi :: lo :: rest => [hi, lo] :: escapes rest
      | short => [short]
    else escapes rest

/-- Two characters that are not two digits and are taken for a number: a digit
behind a space or a sign, or one in front of something that is neither a digit
nor, with the digit, a prefix. -/
def Loose (hi lo : UInt8) : Prop :=
  ((isSpace hi = true ∨ hi = 43 ∨ hi = 45) ∧ (hexValue lo).isSome) ∨
  ((hexValue hi).isSome ∧ hexValue lo = none ∧ ¬ (hi = 48 ∧ (lo = 120 ∨ lo = 88)))

/-! ## §2 The extraction -/

theorem hexValue_skip {c : UInt8} (h : isSpace c = true ∨ c = 43 ∨ c = 45) : hexValue c = none := by
  by_contra hvalue
  obtain ⟨x, hx⟩ := Option.ne_none_iff_exists'.mp hvalue
  rcases h with hc | rfl | rfl
  · rw [isSpace_of_hexValue hx] at hc
    cases hc
  · cases hx
  · cases hx

/-- The one character that is left of two is a number if it is a digit. -/
theorem extractHex_behind {hi lo : UInt8} (h : isSpace hi = true ∨ hi = 43 ∨ hi = 45) :
    (extractHex [hi, lo]).isSome ↔ (hexValue lo).isSome := by
  have hplus : isSpace 43 = false := by decide
  have hminus : isSpace 45 = false := by decide
  -- the number itself does not begin with a space or a sign
  by_cases hlo : isSpace lo = true ∨ lo = 43 ∨ lo = 45
  · have hnone := hexValue_skip hlo
    rcases h with h | rfl | rfl
    · rcases hlo with hlo | rfl | rfl
      · simp [extractHex, h, hlo, skipPrefix, hexDigits, hnone]
      · simp [extractHex, h, hplus, skipPrefix, hexDigits, hnone]
      · simp [extractHex, h, hminus, skipPrefix, hexDigits, hnone]
    · simp [extractHex, hplus, skipPrefix, hexDigits, hnone]
    · simp [extractHex, hminus, skipPrefix, hexDigits, hnone]
  · simp only [not_or] at hlo
    rcases h with h | rfl | rfl
    · cases hx : hexValue lo <;> simp [extractHex, h, hlo, skipPrefix, hexDigits, hx]
    · cases hx : hexValue lo <;> simp [extractHex, hplus, skipPrefix, hexDigits, hx]
    · cases hx : hexValue lo <;> simp [extractHex, hminus, skipPrefix, hexDigits, hx]

/-- The first of two characters is a number if it is a digit, and not the start
of a prefix. -/
theorem extractHex_front {hi lo : UInt8} (h : ¬ (isSpace hi = true ∨ hi = 43 ∨ hi = 45)) :
    (extractHex [hi, lo]).isSome ↔
      (hexValue hi).isSome ∧ ¬ (hi = 48 ∧ (lo = 120 ∨ lo = 88)) := by
  simp only [not_or] at h
  by_cases hprefix : hi = 48 ∧ (lo = 120 ∨ lo = 88)
  · have hzero : isSpace 48 = false := by decide
    obtain ⟨rfl, rfl | rfl⟩ := hprefix <;> simp [extractHex, hzero, skipPrefix, hexDigits]
  · cases hx : hexValue hi with
    | none => simp [extractHex, h, skipPrefix, hprefix, hexDigits, hx]
    | some x =>
      cases hy : hexValue lo <;>
        simp [extractHex, h, skipPrefix, hprefix, hexDigits, hx, hy]

theorem extractHex_isSome (hi lo : UInt8) :
    (extractHex [hi, lo]).isSome ↔ TwoDigits hi lo ∨ Loose hi lo := by
  by_cases h : isSpace hi = true ∨ hi = 43 ∨ hi = 45
  · rw [extractHex_behind h, TwoDigits, Loose, hexValue_skip h]
    simp [h]
  · have hprefix : (hexValue lo).isSome → ¬ (hi = 48 ∧ (lo = 120 ∨ lo = 88)) := by
      intro hlo hboth
      rcases hboth.2 with rfl | rfl <;> cases hlo
    rw [extractHex_front h, TwoDigits, Loose]
    cases hx : hexValue lo with
    | none => simp [h]
    | some x => simp [h, hprefix (by simp [hx])]

/-! ## §3 Reading from the left -/

/-- The characters of a string as `decode` reads them: one by one, and behind a
`'%'` two at once. -/
theorem reading_induction {P : Text → Prop} (nil : P [])
    (plain : ∀ c rest, c ≠ 37 → P rest → P (c :: rest))
    (escape : ∀ hi lo rest, P rest → P (37 :: hi :: lo :: rest))
    (short : ∀ code : Text, code.length < 2 → P (37 :: code)) : ∀ s, P s
  | [] => nil
  | [c] => by
    by_cases hc : c = 37
    · exact hc ▸ short [] (by decide)
    · exact plain c [] hc nil
  | [c, d] => by
    by_cases hc : c = 37
    · exact hc ▸ short [d] (by simp)
    · exact plain c [d] hc (reading_induction nil plain escape short [d])
  | c :: hi :: lo :: rest => by
    by_cases hc : c = 37
    · exact hc ▸ escape hi lo rest (reading_induction nil plain escape short rest)
    · exact plain c _ hc (reading_induction nil plain escape short (hi :: lo :: rest))

theorem decode_escape (hi lo : UInt8) (rest : Text) :
    decode (37 :: hi :: lo :: rest) =
      match extractHex [hi, lo] with
      | none => (false, [])
      | some value => ((decode rest).1, UInt8.ofInt value :: (decode rest).2) := by
  rw [decode]
  exact if_pos rfl

theorem decode_short {code : Text} (h : code.length < 2) : decode (37 :: code) = (false, []) := by
  match code with
  | [] => rfl
  | [c] => rfl

theorem strictDecode_plain {c : UInt8} (hc : c ≠ 37) (rest : Text) :
    strictDecode (c :: rest) = (strictDecode rest).map ((if c = 43 then 32 else c) :: ·) := by
  match rest with
  | [] => by_cases hplus : c = 43 <;> simp [strictDecode, hc, hplus]
  | [d] => by_cases hplus : c = 43 <;> simp [strictDecode, hc, hplus]
  | hi :: lo :: rest => by_cases hplus : c = 43 <;> simp [strictDecode, hc, hplus]

theorem strictDecode_escape (hi lo : UInt8) (rest : Text) :
    strictDecode (37 :: hi :: lo :: rest) =
      match hexValue hi, hexValue lo with
      | some x, some y => (strictDecode rest).map (UInt8.ofNat (16 * x + y) :: ·)
      | _, _ => none := by
  rw [strictDecode, if_pos rfl]

theorem strictDecode_short {code : Text} (h : code.length < 2) :
    strictDecode (37 :: code) = none := by
  match code with
  | [] => rfl
  | [c] => rfl

theorem escapes_plain {c : UInt8} (hc : c ≠ 37) (rest : Text) :
    escapes (c :: rest) = escapes rest := by
  match rest with
  | [] => simp [escapes, hc]
  | [d] => simp [escapes, hc]
  | hi :: lo :: rest => simp [escapes, hc]

theorem escapes_escape (hi lo : UInt8) (rest : Text) :
    escapes (37 :: hi :: lo :: rest) = [hi, lo] :: escapes rest := by
  rw [escapes, if_pos rfl]

theorem escapes_short {code : Text} (h : code.length < 2) : escapes (37 :: code) = [code] := by
  match code with
  | [] => rfl
  | [c] => rfl

/-- Every escape of the string is two characters of a kind. -/
def EscapesAre (kind : UInt8 → UInt8 → Prop) (s : Text) : Prop :=
  ∀ code ∈ escapes s, ∃ hi lo, code = [hi, lo] ∧ kind hi lo

theorem escapesAre_escape {kind : UInt8 → UInt8 → Prop} {hi lo : UInt8} {rest : Text} :
    EscapesAre kind (37 :: hi :: lo :: rest) ↔ kind hi lo ∧ EscapesAre kind rest := by
  simp [EscapesAre, escapes_escape]

theorem not_escapesAre_short {kind : UInt8 → UInt8 → Prop} {code : Text} (h : code.length < 2) :
    ¬ EscapesAre kind (37 :: code) := by
  intro hall
  obtain ⟨hi, lo, hcode, -⟩ := hall code (by simp [escapes_short h])
  rw [hcode] at h
  simp at h

theorem escapesAre_plain {kind : UInt8 → UInt8 → Prop} {c : UInt8} (hc : c ≠ 37) {rest : Text} :
    EscapesAre kind (c :: rest) ↔ EscapesAre kind rest := by
  rw [EscapesAre, escapes_plain hc, EscapesAre]

/-- `decode` accepts the strings whose escapes the extraction accepts. -/
theorem decode_fst (s : Text) :
    (decode s).1 = true ↔ EscapesAre (fun hi lo => TwoDigits hi lo ∨ Loose hi lo) s := by
  induction s using reading_induction with
  | nil => simp [decode, EscapesAre, escapes]
  | plain c rest hc ih => rw [decode_cons hc, escapesAre_plain hc, ih]
  | escape hi lo rest ih =>
    rw [decode_escape, escapesAre_escape, ← extractHex_isSome, ← ih]
    cases extractHex [hi, lo] <;> simp
  | short code h => simp [decode_short h, not_escapesAre_short h]

theorem strictDecode_isSome (s : Text) : (strictDecode s).isSome ↔ EscapesAre TwoDigits s := by
  induction s using reading_induction with
  | nil => simp [strictDecode, EscapesAre, escapes]
  | plain c rest hc ih => rw [strictDecode_plain hc, escapesAre_plain hc, ← ih, Option.isSome_map]
  | escape hi lo rest ih =>
    rw [strictDecode_escape, escapesAre_escape, ← ih, TwoDigits]
    cases hexValue hi <;> cases hexValue lo <;> simp
  | short code h => simp [strictDecode_short h, not_escapesAre_short h]

/-- **What the rule reads, `decode` reads.** -/
theorem decode_of_strictDecode {s out : Text} (h : strictDecode s = some out) :
    decode s = (true, out) := by
  induction s using reading_induction generalizing out with
  | nil =>
    cases h
    rfl
  | plain c rest hc ih =>
    rw [strictDecode_plain hc] at h
    obtain ⟨out, hout, rfl⟩ := Option.map_eq_some_iff.mp h
    rw [decode_cons hc, ih hout]
  | escape hi lo rest ih =>
    rw [strictDecode_escape] at h
    split at h
    · rename_i x y hx hy
      obtain ⟨out, hout, rfl⟩ := Option.map_eq_some_iff.mp h
      rw [decode_escape, extractHex_digits hx hy, ih hout]
      simp only [ofInt_natCast]
    · cases h
  | short code h' => rw [strictDecode_short h'] at h; cases h

/-! ## §4 Where `decode` and the rule differ -/

/-- `decode` accepts the strings whose escapes all have two digits, and replaces
them. -/
def DecodesExactly (s : Text) : Prop :=
  ((decode s).1 = true ↔ EscapesAre TwoDigits s) ∧
    ((decode s).1 = true → strictDecode s = some (decode s).2)

/-- Some escape is none, and every one that is none is taken for a number. -/
structure PassesLoosely (s : Text) : Prop where
  loose : ∃ hi lo, [hi, lo] ∈ escapes s ∧ Loose hi lo
  taken : EscapesAre (fun hi lo => TwoDigits hi lo ∨ Loose hi lo) s

theorem Loose.not_twoDigits {hi lo : UInt8} (h : Loose hi lo) : ¬ TwoDigits hi lo := by
  intro htwo
  rcases h with ⟨hskip, -⟩ | ⟨-, hnone, -⟩
  · have hhi := htwo.1
    rw [hexValue_skip hskip] at hhi
    cases hhi
  · have hlo := htwo.2
    rw [hnone] at hlo
    cases hlo

/-- **`decode` is exact unless it accepts an escape that is none**; every
encoding of a string is read back. -/
theorem decodesExactly_iff (s : Text) :
    (DecodesExactly s ↔ ¬ PassesLoosely s) ∧
      ∀ text, Encodes s text → decode text = (true, s) := by
  refine ⟨⟨fun h hloose => ?_, fun h => ?_⟩, fun text h => ?_⟩
  · obtain ⟨hi, lo, hmem, hloose'⟩ := hloose.loose
    have hdigits := h.1.mp ((decode_fst s).mpr hloose.taken)
    obtain ⟨hi', lo', hcode, htwo⟩ := hdigits _ hmem
    obtain ⟨rfl, rfl⟩ : hi = hi' ∧ lo = lo' := by simpa using hcode
    exact hloose'.not_twoDigits htwo
  · -- an escape that is accepted and has no two digits would pass
    have hexact : (decode s).1 = true → EscapesAre TwoDigits s := by
      intro htrue code hcode
      have htaken := (decode_fst s).mp htrue
      obtain ⟨hi, lo, rfl, hkind⟩ := htaken code hcode
      exact ⟨hi, lo, rfl, hkind.resolve_right fun hloose => h ⟨⟨hi, lo, hcode, hloose⟩, htaken⟩⟩
    have hread : EscapesAre TwoDigits s →
        ∃ out, strictDecode s = some out ∧ decode s = (true, out) := by
      intro hdigits
      obtain ⟨out, hout⟩ := Option.isSome_iff_exists.mp ((strictDecode_isSome s).mpr hdigits)
      exact ⟨out, hout, decode_of_strictDecode hout⟩
    refine ⟨⟨hexact, fun hdigits => ?_⟩, fun htrue => ?_⟩
    · obtain ⟨out, -, hdecode⟩ := hread hdigits
      rw [hdecode]
    · obtain ⟨out, hout, hdecode⟩ := hread (hexact htrue)
      rw [hout, hdecode]
  · have hdecode := decode_encodes h []
    simpa [decode] using hdecode

/-- The string `"%+1"` is accepted. -/
theorem decode_accepts_sign : ¬ ∀ s, DecodesExactly s := by
  intro h
  have hdigits := (h [37, 43, 49]).1.mp (by decide)
  obtain ⟨hi, lo, hcode, htwo⟩ := hdigits [43, 49] (by decide)
  obtain ⟨rfl, rfl⟩ : (43 : UInt8) = hi ∧ (49 : UInt8) = lo := by simpa using hcode
  exact absurd htwo.1 (by decide)

end Acatl.StringHelper

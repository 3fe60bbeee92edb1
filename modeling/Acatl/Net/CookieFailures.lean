/-
Acatl.Net.CookieFailures — how `parseCookie` fails.

Nothing that the client's parser does goes wrong, so that it fails with its own
exception only. The server's parser takes the first part of a string between
commas whether or not there is one, and it lets the exceptions of `stoul` and
`numeric_cast` through. This is what happens when the first thing that is wrong is
an empty string, or a `max-age` without a number that fits (`failsCleanly_iff`).
-/
import Mathlib.Algebra.Group.Nat.Defs
import Acatl.Lib.FirstFailure
import Acatl.Net.ClientCookies

namespace Acatl.Net.HttpCookie

open StringHelper

/-! ## §1 Failures -/

section

variable {α : Type}

/-- An exception that is not the parser's own, or none at all. -/
def Foreign (e : CookieFailure) : Prop := ∀ message, e ≠ .malformedCookie message

/-- What is not a result is a `MalformedCookieException`. -/
def FailsCleanly (r : Except CookieFailure α) : Prop :=
  ∀ e, r = .error e → ∃ message, e = .malformedCookie message

theorem failsCleanly_ok (a : α) : FailsCleanly (.ok a) := fun _ he => by cases he

theorem failsCleanly_malformed (message : Text) :
    FailsCleanly (α := α) (.error (.malformedCookie message)) :=
  fun _ he => ⟨message, (Except.error.inj he).symm⟩

theorem failsCleanly_iff_not_foreign {r : Except CookieFailure α} :
    FailsCleanly r ↔ ¬ ∃ e, Foreign e ∧ r = .error e := by
  refine ⟨fun h hforeign => ?_, fun h e he => ?_⟩
  · obtain ⟨e, hforeign, he⟩ := hforeign
    obtain ⟨message, rfl⟩ := h e he
    exact hforeign message rfl
  · by_contra hno
    exact h ⟨e, fun message heq => hno ⟨message, heq⟩, he⟩

end

/-! ## §2 What a part says -/

/-- A value without its quotes. -/
def unquoted (value : Text) : Text :=
  if value.charAt 0 = 34 then (value.drop 1).take (value.length - 2) else value

theorem unquote_eq (value : Text) : unquote value = .ok (unquoted value) := by
  rw [unquote, unquoted]
  split
  · rename_i hquote
    cases value with
    | nil => exact absurd hquote (by decide)
    | cons c rest => exact substr_of_le (by simp)
  · rfl

/-- The name of an attribute, and its value. -/
def attributeOf (part : Text) : Text × Text :=
  match part.findIdx? (· = 61) with
  | some p => (tolower (trim (part.take p)), unquoted (trim (part.drop (p + 1))))
  | none => (tolower part, [])

theorem findIdx?_lt {part : Text} {p : Nat} (h : part.findIdx? (· = 61) = some p) :
    p < part.length := (List.findIdx?_eq_some_iff_getElem.mp h).1

theorem substr_part {part : Text} {p : Nat} (h : part.findIdx? (· = 61) = some p) :
    substr part 0 p = .ok (part.take p) ∧ substr part (p + 1) = .ok (part.drop (p + 1)) := by
  have hlt := findIdx?_lt h
  have hall : (part.drop (p + 1)).take part.length = part.drop (p + 1) :=
    List.take_of_length_le (by rw [List.length_drop]; omega)
  rw [substr_of_le (Nat.zero_le _), substr_of_le (by omega), hall]
  exact ⟨rfl, rfl⟩

theorem splitAttribute_eq (part : Text) : splitAttribute part = .ok (attributeOf part) := by
  rw [splitAttribute, attributeOf]
  cases hfind : part.findIdx? (· = 61) with
  | none => rfl
  | some p =>
    obtain ⟨hfront, hbehind⟩ := substr_part hfind
    simp only [hfront, hbehind, bind, Except.bind, unquote_eq]

/-- A name and a value, of which the name does not start with a dollar sign. -/
def IsNameValue (part : Text) : Prop :=
  ∃ n, part.findIdx? (· = 61) = some n ∧ (trim (part.take n)).charAt 0 ≠ 36

theorem readNameValue_spec (cookieString part : Text) :
    (IsNameValue part ∧ ∃ cookie, readNameValue cookieString part = .ok cookie) ∨
      (¬ IsNameValue part ∧
        ∃ message, readNameValue cookieString part = .error (.malformedCookie message)) := by
  rw [readNameValue]
  cases hfind : part.findIdx? (· = 61) with
  | none =>
    refine .inr ⟨fun h => ?_, _, rfl⟩
    obtain ⟨n, hn, -⟩ := h
    rw [hfind] at hn
    cases hn
  | some n =>
    obtain ⟨hfront, hbehind⟩ := substr_part hfind
    simp only [hfront, hbehind, bind, Except.bind, unquote_eq, construct]
    by_cases hdollar : (trim (part.take n)).charAt 0 = 36
    · refine .inr ⟨fun h => ?_, _, if_pos hdollar⟩
      obtain ⟨n', hn', hname⟩ := h
      obtain rfl : n = n' := Option.some.inj (hfind.symm.trans hn')
      exact hname hdollar
    · exact .inl ⟨⟨n, hfind, hdollar⟩, _, if_neg hdollar⟩

/-! ## §3 Ages -/

/-- The digits behind white space and a sign. -/
def digitsOf (val : Text) : Text :=
  let s := val.dropWhile isSpace
  (if s.head? = some 43 ∨ s.head? = some 45 then s.tail else s).takeWhile isDigit

def number (digits : Text) : Nat := digits.foldl (fun v c => 10 * v + (c.toNat - 48)) 0

/-- A number that fits into the field. With a minus sign it is one that does so
when it is taken off 2^64. -/
def IsAge (val : Text) : Prop :=
  digitsOf val ≠ [] ∧
    if (val.dropWhile isSpace).head? = some 45 then
      number (digitsOf val) = 0 ∨
        2 ^ 64 - 2 ^ 32 < number (digitsOf val) ∧ number (digitsOf val) < 2 ^ 64
    else number (digitsOf val) < 2 ^ 32

theorem numericCast_spec (n : Nat) :
    (n < 2 ^ 32 ∧ ∃ age, numericCast n = .ok age) ∨
      (¬ n < 2 ^ 32 ∧ ∃ e, Foreign e ∧ numericCast n = .error e) := by
  have hsize : UInt32.size - 1 = 2 ^ 32 - 1 := rfl
  rw [numericCast, hsize]
  by_cases hn : 2 ^ 32 - 1 < n
  · refine .inr ⟨by omega, _, fun message => ?_, if_pos hn⟩
    simp
  · exact .inl ⟨by omega, _, if_neg hn⟩

/-- `numeric_cast<uint32_t>(std::stoul(val))`. -/
theorem readAge_spec (val : Text) :
    (IsAge val ∧ ∃ age, (stoul val >>= numericCast) = .ok age) ∨
      (¬ IsAge val ∧ ∃ e, Foreign e ∧ (stoul val >>= numericCast) = .error e) := by
  have hstoul : stoul val =
      if digitsOf val = [] then .error .invalidArgument
      else if 2 ^ 64 ≤ number (digitsOf val) then .error .outOfRange
      else .ok (if (val.dropWhile isSpace).head? = some 45 then
        (2 ^ 64 - number (digitsOf val)) % 2 ^ 64 else number (digitsOf val)) := rfl
  rw [hstoul, IsAge]
  generalize number (digitsOf val) = n
  by_cases hdigits : digitsOf val = []
  · rw [if_pos hdigits]
    exact .inr ⟨fun h => h.1 hdigits, _, fun message => by simp, rfl⟩
  rw [if_neg hdigits]
  by_cases hrange : 2 ^ 64 ≤ n
  · rw [if_pos hrange]
    refine .inr ⟨fun h => ?_, _, fun message => by simp, rfl⟩
    obtain ⟨-, h⟩ := h
    split at h <;> omega
  rw [if_neg hrange]
  -- the number that is cast fits just when the age does
  have hfits : (if (val.dropWhile isSpace).head? = some 45 then (2 ^ 64 - n) % 2 ^ 64 else n) < 2 ^ 32 ↔
      if (val.dropWhile isSpace).head? = some 45 then
        n = 0 ∨ 2 ^ 64 - 2 ^ 32 < n ∧ n < 2 ^ 64 else n < 2 ^ 32 := by
    split
    · by_cases hzero : n = 0
      · simp [hzero]
      · rw [Nat.mod_eq_of_lt (by omega)]
        omega
    · exact Iff.rfl
  rw [← hfits]
  obtain ⟨hlt, hcast⟩ | ⟨hge, hcast⟩ := numericCast_spec
    (if (val.dropWhile isSpace).head? = some 45 then (2 ^ 64 - n) % 2 ^ 64 else n)
  · exact .inl ⟨⟨hdigits, hlt⟩, hcast⟩
  · exact .inr ⟨fun h => hge h.2, hcast⟩

/-! ## §4 Attributes -/

/-- An attribute with a value that it can have. -/
def IsAttribute (part : Text) : Prop :=
  (attributeOf part).1 = Text.ofString "domain" ∨ (attributeOf part).1 = Text.ofString "path" ∨
    ((attributeOf part).1 = Text.ofString "max-age" ∧ IsAge (attributeOf part).2) ∨
    ((attributeOf part).1 = Text.ofString "version" ∧
      (attributeOf part).2 = Text.ofString "1") ∨
    (attributeOf part).1 = Text.ofString "secure"

/-- A `max-age` that is none. -/
def BadAge (part : Text) : Prop :=
  (attributeOf part).1 = Text.ofString "max-age" ∧ ¬ IsAge (attributeOf part).2

theorem readAttribute_eq (part : Text) :
    readAttribute part =
      if (attributeOf part).1 = Text.ofString "domain" then .ok (.domain (attributeOf part).2)
      else if (attributeOf part).1 = Text.ofString "path" then .ok (.path (attributeOf part).2)
      else if (attributeOf part).1 = Text.ofString "max-age" then
        (stoul (attributeOf part).2 >>= numericCast).map .maxAge
      else if (attributeOf part).1 = Text.ofString "version" then
        if (attributeOf part).2 ≠ Text.ofString "1" then
          .error (.malformedCookie (Text.ofString "Cookie has wrong version: " ++ part))
        else .ok .version
      else if (attributeOf part).1 = Text.ofString "secure" then .ok .secure
      else
        .error (.malformedCookie
          (Text.ofString "Malformed cookie, unknown attribute: " ++ part)) := by
  rw [readAttribute, splitAttribute_eq]
  cases hstoul : stoul (attributeOf part).2 with
  | error e => simp only [bind, Except.bind, hstoul, Except.map]
  | ok n =>
    cases hcast : numericCast n <;> simp only [bind, Except.bind, hstoul, hcast, Except.map]

/-- **An attribute is understood, or a `max-age` fails as the number does, or the
exception is the parser's own.** -/
theorem readAttribute_spec (part : Text) :
    (IsAttribute part ∧ ¬ BadAge part ∧ ∃ a, readAttribute part = .ok a) ∨
      (¬ IsAttribute part ∧ BadAge part ∧ ∃ e, Foreign e ∧ readAttribute part = .error e) ∨
      (¬ IsAttribute part ∧ ¬ BadAge part ∧
        ∃ message, readAttribute part = .error (.malformedCookie message)) := by
  have hdomainAge : Text.ofString "domain" ≠ Text.ofString "max-age" := by decide +kernel
  have hpathAge : Text.ofString "path" ≠ Text.ofString "max-age" := by decide +kernel
  have hageVersion : Text.ofString "max-age" ≠ Text.ofString "version" := by decide +kernel
  have hageSecure : Text.ofString "max-age" ≠ Text.ofString "secure" := by decide +kernel
  have hversionSecure : Text.ofString "version" ≠ Text.ofString "secure" := by decide +kernel
  rw [IsAttribute, BadAge, readAttribute_eq]
  generalize (attributeOf part).1 = attr
  generalize (attributeOf part).2 = val
  by_cases hdomain : attr = Text.ofString "domain"
  · rw [if_pos hdomain]
    exact .inl ⟨.inl hdomain, fun h => hdomainAge (hdomain.symm.trans h.1), _, rfl⟩
  by_cases hpath : attr = Text.ofString "path"
  · rw [if_neg hdomain, if_pos hpath]
    exact .inl ⟨.inr (.inl hpath), fun h => hpathAge (hpath.symm.trans h.1), _, rfl⟩
  by_cases hage : attr = Text.ofString "max-age"
  · have hversion : attr ≠ Text.ofString "version" := fun h => hageVersion (hage.symm.trans h)
    have hsecure : attr ≠ Text.ofString "secure" := fun h => hageSecure (hage.symm.trans h)
    rw [if_neg hdomain, if_neg hpath, if_pos hage]
    obtain ⟨hisAge, age, hread⟩ | ⟨hbad, e, hforeign, hread⟩ := readAge_spec val
    · rw [hread]
      exact .inl ⟨.inr (.inr (.inl ⟨hage, hisAge⟩)), fun h => h.2 hisAge, _, rfl⟩
    · rw [hread]
      refine .inr (.inl ⟨?_, ⟨hage, hbad⟩, e, hforeign, rfl⟩)
      simp [hdomain, hpath, hbad, hversion, hsecure]
  by_cases hversion : attr = Text.ofString "version"
  · have hsecure : attr ≠ Text.ofString "secure" := fun h => hversionSecure (hversion.symm.trans h)
    rw [if_neg hdomain, if_neg hpath, if_neg hage, if_pos hversion]
    by_cases hone : val = Text.ofString "1"
    · rw [if_neg (not_not_intro hone)]
      exact .inl ⟨.inr (.inr (.inr (.inl ⟨hversion, hone⟩))), fun h => hage h.1, _, rfl⟩
    · rw [if_pos hone]
      exact .inr (.inr ⟨by simp [hdomain, hpath, hage, hone, hsecure], fun h => hage h.1, _, rfl⟩)
  rw [if_neg hdomain, if_neg hpath, if_neg hage, if_neg hversion]
  by_cases hsecure : attr = Text.ofString "secure"
  · rw [if_pos hsecure]
    exact .inl ⟨.inr (.inr (.inr (.inr hsecure))), fun h => hage h.1, _, rfl⟩
  · rw [if_neg hsecure]
    exact .inr (.inr ⟨by simp [hdomain, hpath, hage, hversion, hsecure], fun h => hage h.1, _, rfl⟩)

theorem readAttribute_ok_iff (part : Text) :
    (∃ a, readAttribute part = .ok a) ↔ IsAttribute part := by
  obtain ⟨h, -, hread⟩ | ⟨h, -, e, -, hread⟩ | ⟨h, -, message, hread⟩ := readAttribute_spec part
  · exact iff_of_true hread h
  · exact iff_of_false (by simp [hread]) h
  · exact iff_of_false (by simp [hread]) h

theorem readAttribute_foreign_iff (part : Text) :
    (∃ e, Foreign e ∧ readAttribute part = .error e) ↔ BadAge part := by
  obtain ⟨-, h, a, hread⟩ | ⟨-, h, hread⟩ | ⟨-, h, message, hread⟩ := readAttribute_spec part
  · exact iff_of_false (by simp [hread]) h
  · exact iff_of_true hread h
  · exact iff_of_false (by simp [hread, Foreign]) h

/-! ## §5 Strings between commas -/

/-- A name with its value, and attributes. -/
def IsCookie (s : Text) : Prop :=
  ∃ part parts, split s 59 = part :: parts ∧ IsNameValue part ∧ ∀ a ∈ parts, IsAttribute a

/-- Nothing at all, or a name with its value, and a `max-age` that is none
behind attributes. -/
def Escapes (s : Text) : Prop :=
  s = [] ∨ ∃ part front age back, split s 59 = part :: (front ++ age :: back) ∧
    IsNameValue part ∧ (∀ a ∈ front, IsAttribute a) ∧ BadAge age

theorem split_eq_nil {s : Text} : split s 59 = [] ↔ s = [] := by
  simp [split, Lib.pieces_eq_nil]

theorem readCookie_ok_iff (s : Text) : (∃ r, readCookie s = .ok r) ↔ IsCookie s := by
  rw [readCookie, IsCookie]
  cases hsplit : split s 59 with
  | nil => simp
  | cons part parts =>
    simp only [List.cons.injEq]
    obtain ⟨hname, cookie, hread⟩ | ⟨hname, message, hread⟩ := readNameValue_spec s part
    · have hattributes : (∃ as, parts.mapM readAttribute = .ok as) ↔
          ∀ a ∈ parts, IsAttribute a := by
        simp only [Lib.exists_mapM_eq_ok, readAttribute_ok_iff]
      refine ⟨fun h => ?_, fun h => ?_⟩
      · obtain ⟨r, hr⟩ := h
        refine ⟨part, parts, ⟨rfl, rfl⟩, hname, hattributes.mp ?_⟩
        cases has : parts.mapM readAttribute with
        | error e => simp [hread, has, bind, Except.bind] at hr
        | ok as => exact ⟨as, rfl⟩
      · obtain ⟨_, _, ⟨rfl, rfl⟩, -, hparts⟩ := h
        obtain ⟨as, has⟩ := hattributes.mpr hparts
        exact ⟨(cookie, as), by simp [hread, has, bind, Except.bind]⟩
    · refine iff_of_false (by simp [hread, bind, Except.bind]) fun h => ?_
      obtain ⟨_, _, ⟨rfl, rfl⟩, h, -⟩ := h
      exact hname h

theorem readCookie_foreign_iff (s : Text) :
    (∃ e, Foreign e ∧ readCookie s = .error e) ↔ Escapes s := by
  rw [readCookie, Escapes]
  cases hsplit : split s 59 with
  | nil => exact iff_of_true ⟨.undefined, fun message => by simp, rfl⟩ (.inl (split_eq_nil.mp hsplit))
  | cons part parts =>
    have hne : s ≠ [] := fun h => by simp [split_eq_nil.mpr h] at hsplit
    simp only [List.cons.injEq, hne, false_or]
    obtain ⟨hname, cookie, hread⟩ | ⟨hname, message, hread⟩ := readNameValue_spec s part
    · have hbind (e : CookieFailure) :
          ((readNameValue s part >>= fun cookie => parts.mapM readAttribute >>= fun as =>
            Except.ok (cookie, as)) = .error e) ↔ Lib.FailsFirst readAttribute parts e := by
        rw [← Lib.mapM_eq_error, hread]
        cases parts.mapM readAttribute <;> simp [bind, Except.bind]
      simp only [hbind]
      refine ⟨fun h => ?_, fun h => ?_⟩
      · obtain ⟨e, hforeign, front, age, back, hparts, hfront, hage⟩ := h
        exact ⟨part, front, age, back, ⟨rfl, hparts⟩, hname,
          fun a ha => (readAttribute_ok_iff a).mp (hfront a ha),
          (readAttribute_foreign_iff age).mp ⟨e, hforeign, hage⟩⟩
      · obtain ⟨_, front, age, back, ⟨rfl, hparts⟩, -, hfront, hbad⟩ := h
        obtain ⟨e, hforeign, hage⟩ := (readAttribute_foreign_iff age).mpr hbad
        exact ⟨e, hforeign, front, age, back, hparts,
          fun a ha => (readAttribute_ok_iff a).mpr (hfront a ha), hage⟩
    · refine iff_of_false (by simp [hread, bind, Except.bind, Foreign]) fun h => ?_
      obtain ⟨_, _, _, _, ⟨rfl, -⟩, h, -⟩ := h
      exact hname h

/-! ## §6 Client cookies -/

theorem exists_splitPart (part : Text) : ∃ first second, splitPart part = .ok (first, second) := by
  rw [splitPart]
  cases hfind : part.findIdx? (· = 61) with
  | none => exact ⟨_, _, rfl⟩
  | some p =>
    obtain ⟨hfront, hbehind⟩ := substr_part hfind
    simp only [hfront, hbehind, bind, Except.bind, unquote_eq]
    exact ⟨_, _, rfl⟩

theorem exists_modifyBack (f : HttpCookie → HttpCookie) {cookies : List HttpCookie}
    (h : cookies ≠ []) : ∃ changed, modifyBack f cookies = .ok changed := by
  rw [modifyBack, List.getLast?_eq_some_getLast h]
  exact ⟨_, rfl⟩

/-- An attribute is for the last cookie, and there is one when it is looked for. -/
theorem failsCleanly_modifyBack (f : HttpCookie → HttpCookie) (cookies : List HttpCookie)
    (message : Text) :
    FailsCleanly (if cookies = [] then .error (.malformedCookie message)
      else modifyBack f cookies) := by
  by_cases hnil : cookies = []
  · rw [if_pos hnil]
    exact failsCleanly_malformed message
  · obtain ⟨changed, hchanged⟩ := exists_modifyBack f hnil
    rw [if_neg hnil, hchanged]
    exact failsCleanly_ok changed

theorem failsCleanly_addClientPart (cookies : List HttpCookie) (part : Text) :
    FailsCleanly (addClientPart cookies part) := by
  obtain ⟨first, second, hsplit⟩ := exists_splitPart part
  simp only [addClientPart, hsplit, bind, Except.bind]
  split
  · exact failsCleanly_malformed _
  split
  · split
    · exact failsCleanly_malformed _
    split
    · exact failsCleanly_malformed _
    · exact failsCleanly_ok _
  split
  · exact failsCleanly_modifyBack _ cookies _
  split
  · exact failsCleanly_modifyBack _ cookies _
  by_cases hdollar : first.charAt 0 = 36
  · simp only [construct, if_pos hdollar]
    exact failsCleanly_malformed _
  · simp only [construct, if_neg hdollar]
    exact failsCleanly_ok _

/-- The parser of client cookies. -/
theorem failsCleanly_parseClientCookies (header : Text) :
    FailsCleanly (parseClientCookies header) := by
  intro e he
  rw [parseClientCookies_eq] at he
  obtain ⟨cookies, part, -, hfail⟩ := Lib.foldlM_error_of he
  exact failsCleanly_addClientPart cookies part e hfail

/-! ## §7 Both parsers -/

theorem parseServerCookies_foreign_iff (header : Text) :
    (∃ e, Foreign e ∧ parseServerCookies header = .error e) ↔
      ∃ front s back, split header 44 = front ++ s :: back ∧ (∀ t ∈ front, IsCookie t) ∧
        Escapes s := by
  simp only [parseServerCookies, Lib.foldlM_eq_error addServerCookie_eq]
  refine ⟨fun h => ?_, fun h => ?_⟩
  · obtain ⟨e, hforeign, front, s, back, hsplit, hfront, hs⟩ := h
    exact ⟨front, s, back, hsplit, fun t ht => (readCookie_ok_iff t).mp (hfront t ht),
      (readCookie_foreign_iff s).mp ⟨e, hforeign, hs⟩⟩
  · obtain ⟨front, s, back, hsplit, hfront, hs⟩ := h
    obtain ⟨e, hforeign, hs⟩ := (readCookie_foreign_iff s).mpr hs
    exact ⟨e, hforeign, front, s, back, hsplit,
      fun t ht => (readCookie_ok_iff t).mpr (hfront t ht), hs⟩

/-- **`parseCookie` fails cleanly on every client cookie, and on the server cookies
in which the first string that is none is not empty, and has no `max-age` as the
first thing that is wrong.** -/
theorem failsCleanly_iff (type : CookieType) (header : Text) :
    FailsCleanly (parseCookie type header) ↔
      type = .client ∨ ¬ ∃ front s back, split header 44 = front ++ s :: back ∧
        (∀ t ∈ front, IsCookie t) ∧ Escapes s := by
  cases type with
  | client => exact iff_of_true (failsCleanly_parseClientCookies header) (.inl rfl)
  | server =>
    rw [parseCookie, failsCleanly_iff_not_foreign, parseServerCookies_foreign_iff]
    simp

/-- A comma has an empty string in front of it, and `a=b;max-age=x` no number. -/
theorem not_always_failsCleanly :
    ¬ FailsCleanly (parseCookie .server [44]) ∧
      ¬ FailsCleanly (parseCookie .server (Text.ofString "a=b;max-age=x")) := by
  have hundefined : parseCookie .server [44] = .error .undefined := by decide +kernel
  have hinvalid : parseCookie .server (Text.ofString "a=b;max-age=x") = .error .invalidArgument := by
    decide +kernel
  refine ⟨fun h => ?_, fun h => ?_⟩
  · obtain ⟨message, hmessage⟩ := h _ hundefined
    cases hmessage
  · obtain ⟨message, hmessage⟩ := h _ hinvalid
    cases hmessage

end Acatl.Net.HttpCookie

/-
Acatl.Net.CookieRoundTrip — server cookies that are printed and parsed again.

  `stoul_decimal`       a number that was printed is read back.
  `readAttribute_pair`  `name=value` in an attribute.
  `print_eq`            a printed cookie, as parts between semicolons.
  `parse_print`         what the parser makes of a printed cookie.

The parser has no attribute for `HttpOnly`, and the constructor sets both flags,
so that a flag that is not printed comes back set.
-/
import Acatl.Net.CookieAttributes
import Acatl.Trimming

namespace Acatl.Net.HttpCookie

open StringHelper

/-! ## §1 Plain strings -/

/-- A string without `';'`, `','`, `'='` and `'"'`, and without blanks at its
ends. -/
structure PlainText (s : Text) : Prop where
  semicolon : (59 : UInt8) ∉ s
  comma : (44 : UInt8) ∉ s
  equals : (61 : UInt8) ∉ s
  quote : (34 : UInt8) ∉ s
  front : ∀ c ∈ s.head?, isBlank c = false
  back : ∀ c ∈ s.getLast?, isBlank c = false

theorem trim_of_ends {s : Text} (hfront : ∀ c ∈ s.head?, isBlank c = false)
    (hback : ∀ c ∈ s.getLast?, isBlank c = false) : trim s = s := by
  cases s with
  | nil => rfl
  | cons c rest =>
    have hcore : Core (c :: rest) := ⟨List.cons_ne_nil c rest, hfront, hback⟩
    rw [trim, hcore.trimLeft_eq, hcore.trimRight_eq]

theorem PlainText.trim_eq {s : Text} (h : PlainText s) : trim s = s := trim_of_ends h.front h.back

theorem unquote_of_notMem {s : Text} (h : (34 : UInt8) ∉ s) : unquote s = .ok s := by
  have hfront : s.charAt 0 ≠ 34 := by
    cases s with
    | nil => decide
    | cons c rest => exact fun hc => h (by simp [Text.charAt] at hc; simp [hc])
  rw [unquote, if_neg hfront]

/-! ## §2 The first equals sign -/

theorem findIdx?_equals {key : Text} (h : (61 : UInt8) ∉ key) (val : Text) :
    (key ++ 61 :: val).findIdx? (· = 61) = some key.length := by
  have hkey : key.findIdx? (· = 61) = none := by
    rw [List.findIdx?_eq_none_iff]
    intro c hc
    exact decide_eq_false fun heq => h (heq ▸ hc)
  simp [List.findIdx?_append, hkey, List.findIdx?_cons]

theorem substr_front (key val : Text) : substr (key ++ 61 :: val) 0 key.length = .ok key := by
  simp [substr, Text.substr]

theorem substr_behind (key val : Text) :
    substr (key ++ 61 :: val) (key.length + 1) = .ok val := by
  have hdrop : (key ++ 61 :: val).drop (key.length + 1) = val := by simp
  rw [substr, if_pos (by simp), Text.substr, hdrop, List.take_of_length_le (by simp; omega)]

theorem splitAttribute_pair {key val : Text} (hkey : (61 : UInt8) ∉ key) (hval : PlainText val) :
    splitAttribute (key ++ 61 :: val) = .ok (tolower (trim key), val) := by
  rw [splitAttribute, findIdx?_equals hkey]
  simp only [substr_front, substr_behind, bind, Except.bind, hval.trim_eq,
    unquote_of_notMem hval.quote]

theorem readNameValue_pair {name value : Text} (hname : PlainText name)
    (hdollar : name.charAt 0 ≠ 36) (hvalue : PlainText value) (cookieString : Text) :
    readNameValue cookieString (name ++ 61 :: value) = .ok { name, value } := by
  rw [readNameValue, findIdx?_equals hname.equals]
  simp only [substr_front, substr_behind, bind, Except.bind, hvalue.trim_eq, hname.trim_eq,
    unquote_of_notMem hvalue.quote, construct, if_neg hdollar]

/-! ## §3 Numbers -/

theorem isDigit_iff {c : UInt8} : isDigit c = true ↔ 48 ≤ c.toNat ∧ c.toNat ≤ 57 := by
  simp [isDigit, UInt8.le_iff_toNat_le]

/-- A digit is no white space. -/
theorem isSpace_of_isDigit {c : UInt8} (h : isDigit c = true) : isSpace c = false := by
  have hrange := isDigit_iff.mp h
  simp [isSpace, UInt8.le_iff_toNat_le, ← UInt8.toNat_inj]
  omega

theorem isBlank_of_isDigit {c : UInt8} (h : isDigit c = true) : isBlank c = false := by
  have hrange := isDigit_iff.mp h
  simp [isBlank, ← UInt8.toNat_inj]
  omega

theorem toNat_digit {n : Nat} {d : Char} (h : d ∈ Nat.toDigits 10 n) :
    48 ≤ d.toNat ∧ d.toNat ≤ 57 := by
  have hdigit := Nat.isDigit_of_mem_toDigits (by decide) (by decide) h
  simpa [Char.isDigit, UInt32.le_iff_toNat_le] using hdigit

theorem toNat_ofNat_digit {n : Nat} {d : Char} (h : d ∈ Nat.toDigits 10 n) :
    (UInt8.ofNat d.toNat).toNat = d.toNat := by
  have hrange := toNat_digit h
  rw [UInt8.toNat_ofNat', Nat.mod_eq_of_lt (by omega)]

theorem isDigit_of_mem_decimal {n : Nat} {c : UInt8} (h : c ∈ decimal n) : isDigit c = true := by
  obtain ⟨d, hd, rfl⟩ := List.mem_map.mp h
  rw [isDigit_iff, toNat_ofNat_digit hd]
  exact toNat_digit hd

theorem notMem_decimal {n : Nat} {c : UInt8} (h : isDigit c = false) : c ∉ decimal n := by
  intro hmem
  rw [isDigit_of_mem_decimal hmem] at h
  cases h

theorem decimal_ne_nil (n : Nat) : decimal n ≠ [] := by
  intro hnil
  have hpos : 0 < (Nat.toDigits 10 n).length := Nat.length_toDigits_pos
  rw [List.map_eq_nil_iff.mp hnil] at hpos
  simp at hpos

theorem plainText_decimal (n : Nat) : PlainText (decimal n) where
  semicolon := notMem_decimal (by decide)
  comma := notMem_decimal (by decide)
  equals := notMem_decimal (by decide)
  quote := notMem_decimal (by decide)
  front _ hc := isBlank_of_isDigit (isDigit_of_mem_decimal (List.mem_of_mem_head? hc))
  back _ hc := isBlank_of_isDigit (isDigit_of_mem_decimal (List.mem_of_mem_getLast? hc))

theorem value_decimal (n : Nat) :
    (decimal n).foldl (fun v c => 10 * v + (c.toNat - 48)) 0 = n := by
  have hdigits : ∀ (v : Nat), ∀ d ∈ Nat.toDigits 10 n,
      10 * v + ((UInt8.ofNat d.toNat).toNat - 48) = 10 * v + (d.toNat - '0'.toNat) := by
    intro v d hd
    rw [toNat_ofNat_digit hd]
    rfl
  rw [decimal, List.foldl_map, List.foldl_ext _ _ _ hdigits, ← Nat.ofDigitChars_eq_foldl,
    Nat.ofDigitChars_ten_toDigits]

/-- **A number that was printed is read back.** -/
theorem stoul_decimal {n : Nat} (h : n < UInt64.size) : stoul (decimal n) = .ok n := by
  have hdrop : (decimal n).dropWhile isSpace = decimal n := by
    obtain ⟨c, rest, hcons⟩ := List.exists_cons_of_ne_nil (decimal_ne_nil n)
    have hc : isDigit c = true := isDigit_of_mem_decimal (hcons ▸ List.mem_cons_self)
    rw [hcons, List.dropWhile_cons, isSpace_of_isDigit hc]
    rfl
  have htake : (decimal n).takeWhile isDigit = decimal n :=
    List.takeWhile_eq_self_iff.mpr fun d hd => isDigit_of_mem_decimal hd
  -- no sign stands in front of the digits
  have hsign {c : UInt8} (hc : isDigit c = false) : (decimal n).head? ≠ some c :=
    fun hhead => notMem_decimal hc (List.mem_of_mem_head? hhead)
  have hplus := hsign (c := 43) (by decide)
  have hminus := hsign (c := 45) (by decide)
  simp only [stoul, hdrop, hplus, hminus, or_self, if_false, htake, value_decimal,
    decimal_ne_nil, if_neg (not_le.mpr h)]

/-! ## §4 The parts of a printed cookie -/

/-- A part that the parser reads as an attribute, and that stays one part. -/
structure ReadsAs (part : Text) (a : Attribute) : Prop where
  reads : readAttribute part = .ok a
  nonempty : part ≠ []
  semicolon : (59 : UInt8) ∉ part
  comma : (44 : UInt8) ∉ part

/-- A part as it is printed: the name of the attribute, `'='` and a plain value. -/
theorem readsAs_pair {start key attr val : Text} {a : Attribute} (hstart : start = key ++ [61])
    (hequals : (61 : UInt8) ∉ key) (hsemicolon : (59 : UInt8) ∉ start)
    (hcomma : (44 : UInt8) ∉ start) (hattr : tolower (trim key) = attr) (hval : PlainText val)
    (h : splitAttribute (start ++ val) = .ok (attr, val) → readAttribute (start ++ val) = .ok a) :
    ReadsAs (start ++ val) a where
  reads := by
    refine h ?_
    rw [hstart, List.append_assoc, List.singleton_append, splitAttribute_pair hequals hval, hattr]
  nonempty := by simp [hstart]
  semicolon := by simp [hsemicolon, hval.semicolon]
  comma := by simp [hcomma, hval.comma]

theorem readsAs_domain {val : Text} (h : PlainText val) :
    ReadsAs (Text.ofString "Domain=" ++ val) (.domain val) := by
  have hkey : Text.ofString "Domain=" = Text.ofString "Domain" ++ [61] := by decide +kernel
  have hattr : tolower (trim (Text.ofString "Domain")) = Text.ofString "domain" := by
    decide +kernel
  refine readsAs_pair hkey (by decide +kernel) (by decide +kernel) (by decide +kernel) hattr h ?_
  intro hsplit
  simp only [readAttribute, hsplit, bind, Except.bind, if_true]

theorem readsAs_path {val : Text} (h : PlainText val) :
    ReadsAs (Text.ofString "Path=" ++ val) (.path val) := by
  have hkey : Text.ofString "Path=" = Text.ofString "Path" ++ [61] := by decide +kernel
  have hattr : tolower (trim (Text.ofString "Path")) = Text.ofString "path" := by decide +kernel
  have hdomain : Text.ofString "path" ≠ Text.ofString "domain" := by decide +kernel
  refine readsAs_pair hkey (by decide +kernel) (by decide +kernel) (by decide +kernel) hattr h ?_
  intro hsplit
  simp only [readAttribute, hsplit, bind, Except.bind, if_neg hdomain, if_true]

theorem readsAs_maxAge (age : UInt32) :
    ReadsAs (Text.ofString "Max-Age=" ++ decimal age.toNat) (.maxAge age) := by
  have hkey : Text.ofString "Max-Age=" = Text.ofString "Max-Age" ++ [61] := by decide +kernel
  have hattr : tolower (trim (Text.ofString "Max-Age")) = Text.ofString "max-age" := by
    decide +kernel
  have hdomain : Text.ofString "max-age" ≠ Text.ofString "domain" := by decide +kernel
  have hpath : Text.ofString "max-age" ≠ Text.ofString "path" := by decide +kernel
  -- the number fits into an `unsigned long`, and then into the field
  have hlt : age.toNat < UInt32.size := age.toNat_lt_size
  have hlong : age.toNat < UInt64.size := hlt.trans (by decide)
  have hcast : numericCast age.toNat = .ok age := by
    rw [numericCast, if_neg (by omega), UInt32.ofNat_toNat]
  refine readsAs_pair hkey (by decide +kernel) (by decide +kernel) (by decide +kernel) hattr
    (plainText_decimal _) ?_
  intro hsplit
  simp only [readAttribute, hsplit, bind, Except.bind, if_neg hdomain, if_neg hpath, if_true,
    stoul_decimal hlong, hcast]

theorem readsAs_version : ReadsAs (Text.ofString "Version=1") .version :=
  ⟨by decide +kernel, by decide +kernel, by decide +kernel, by decide +kernel⟩

theorem readsAs_secure : ReadsAs (Text.ofString "Secure") .secure :=
  ⟨by decide +kernel, by decide +kernel, by decide +kernel, by decide +kernel⟩

/-- A cookie that can be printed so that its parts can be told apart. -/
structure Printable (cookie : HttpCookie) : Prop where
  name : PlainText cookie.name
  name_ne : cookie.name ≠ []
  dollar : cookie.name.charAt 0 ≠ 36
  value : PlainText cookie.value
  value_ne : cookie.value ≠ []
  domain : PlainText cookie.domain
  path : PlainText cookie.path

/-- The attributes of a printed cookie, and what they are read as. -/
def printed (cookie : HttpCookie) : List (Text × Attribute) :=
  (Text.ofString "Version=1", .version) ::
    ((if cookie.domain ≠ [] then
        [(Text.ofString "Domain=" ++ cookie.domain, .domain cookie.domain)] else []) ++
      (if cookie.path ≠ [] then
        [(Text.ofString "Path=" ++ cookie.path, .path cookie.path)] else []) ++
      (if cookie.maxAge < 0xFFFFFFFF then
        [(Text.ofString "Max-Age=" ++ decimal cookie.maxAge.toNat, .maxAge cookie.maxAge)]
        else []) ++
      if cookie.secure then [(Text.ofString "Secure", .secure)] else [])

theorem readsAs_printed {cookie : HttpCookie} (h : Printable cookie) :
    ∀ e ∈ cookie.printed, ReadsAs e.1 e.2 := by
  have hopt {c : Prop} [Decidable c] {a e : Text × Attribute} (ha : ReadsAs a.1 a.2)
      (he : e ∈ if c then [a] else []) : ReadsAs e.1 e.2 := by
    split at he
    · obtain rfl := List.mem_singleton.mp he
      exact ha
    · simp at he
  intro e he
  simp only [printed, List.mem_cons, List.mem_append] at he
  rcases he with rfl | ((he | he) | he) | he
  · exact readsAs_version
  · exact hopt (readsAs_domain h.domain) he
  · exact hopt (readsAs_path h.path) he
  · exact hopt (readsAs_maxAge cookie.maxAge) he
  · exact hopt readsAs_secure he

theorem foldl_optional {c : Prop} [Decidable c] {e : Text × Attribute} {before after : HttpCookie}
    (h : c → before.assign e.2 = after) (hnot : ¬ c → before = after) :
    ((if c then [e] else []).map Prod.snd).foldl assign before = after := by
  by_cases hc : c
  · simpa [hc] using h hc
  · simpa [hc] using hnot hc

/-- Together the attributes give the cookie back, but for the flags. -/
theorem foldl_printed (cookie : HttpCookie) :
    (cookie.printed.map Prod.snd).foldl assign { name := cookie.name, value := cookie.value } =
      { cookie with secure := true, httpOnly := true } := by
  obtain ⟨name, value, domain, path, maxAge, secure, httpOnly⟩ := cookie
  -- only the largest age is not printed
  have hage : ¬ maxAge < 0xFFFFFFFF → 0xFFFFFFFF = maxAge := by
    intro hle
    have hlt : maxAge.toNat < 4294967296 := maxAge.toNat_lt
    have hmax : (0xFFFFFFFF : UInt32).toNat = 4294967295 := rfl
    rw [UInt32.lt_iff_toNat_lt] at hle
    exact UInt32.toNat_inj.mp (by omega)
  simp only [printed, List.map_cons, List.map_append, List.foldl_cons, List.foldl_append]
  have hdomain : ((if domain ≠ [] then [(Text.ofString "Domain=" ++ domain,
      Attribute.domain domain)] else []).map Prod.snd).foldl assign { name, value } =
        { name, value, domain } :=
    foldl_optional (fun _ => rfl) fun h => by rw [not_not.mp h]
  have hpath : ((if path ≠ [] then [(Text.ofString "Path=" ++ path,
      Attribute.path path)] else []).map Prod.snd).foldl assign { name, value, domain } =
        { name, value, domain, path } :=
    foldl_optional (fun _ => rfl) fun h => by rw [not_not.mp h]
  have hmaxAge : ((if maxAge < 0xFFFFFFFF then
      [(Text.ofString "Max-Age=" ++ decimal maxAge.toNat, Attribute.maxAge maxAge)]
        else []).map Prod.snd).foldl assign { name, value, domain, path } =
        { name, value, domain, path, maxAge } :=
    foldl_optional (fun _ => rfl) fun h => by rw [← hage h]
  have hsecure : ((if secure then [(Text.ofString "Secure", Attribute.secure)]
      else []).map Prod.snd).foldl assign { name, value, domain, path, maxAge } =
        { name, value, domain, path, maxAge } :=
    foldl_optional (fun _ => rfl) fun _ => rfl
  rw [assign, hdomain, hpath, hmaxAge, hsecure]

theorem flatMap_optional {c : Prop} [Decidable c] (e : Text × Attribute) :
    ((if c then [e] else []).map Prod.fst).flatMap (59 :: ·) = if c then 59 :: e.1 else [] := by
  split <;> simp

/-- A printed cookie, as parts between semicolons. -/
def printedParts (cookie : HttpCookie) : List Text :=
  (cookie.name ++ 61 :: cookie.value) ::
    (cookie.printed.map Prod.fst ++ if cookie.httpOnly then [Text.ofString "HttpOnly"] else [])

theorem print_eq (cookie : HttpCookie) : cookie.print = [59].intercalate cookie.printedParts := by
  have hequals : Text.ofString "=" = [61] := by decide +kernel
  have hversion : Text.ofString ";Version=1" = 59 :: Text.ofString "Version=1" := by
    decide +kernel
  have hdomain : Text.ofString ";Domain=" = 59 :: Text.ofString "Domain=" := by decide +kernel
  have hpath : Text.ofString ";Path=" = 59 :: Text.ofString "Path=" := by decide +kernel
  have hage : Text.ofString ";Max-Age=" = 59 :: Text.ofString "Max-Age=" := by decide +kernel
  have hsecure : Text.ofString ";Secure" = 59 :: Text.ofString "Secure" := by decide +kernel
  have hhttpOnly : Text.ofString ";HttpOnly" = 59 :: Text.ofString "HttpOnly" := by
    decide +kernel
  have hlast : (if cookie.httpOnly then [Text.ofString "HttpOnly"] else []).flatMap (59 :: ·) =
      if cookie.httpOnly then 59 :: Text.ofString "HttpOnly" else [] := by
    split <;> simp
  have hcut := Lib.intercalate_append_cons (59 : UInt8) (cookie.name ++ 61 :: cookie.value)
    (cookie.printed.map Prod.fst ++ if cookie.httpOnly then [Text.ofString "HttpOnly"] else []) []
  rw [List.nil_append] at hcut
  rw [printedParts, hcut, print, hequals, hversion, hdomain, hpath, hage, hsecure, hhttpOnly]
  simp only [Lib.unpieces, List.flatMap_nil, List.nil_append, List.flatMap_append, hlast, printed,
    List.map_cons, List.map_append, List.flatMap_cons, flatMap_optional, List.append_assoc,
    List.cons_append]

/-! ## §5 Parsing what was printed -/

theorem mem_printedParts {cookie : HttpCookie} (h : Printable cookie) :
    ∀ part ∈ cookie.printedParts, part ≠ [] ∧ (59 : UInt8) ∉ part ∧ (44 : UInt8) ∉ part := by
  intro part hpart
  rw [printedParts, List.mem_cons, List.mem_append] at hpart
  rcases hpart with rfl | hpart | hpart
  · refine ⟨by simp, ?_, ?_⟩
    · simp [h.name.semicolon, h.value.semicolon]
    · simp [h.name.comma, h.value.comma]
  · obtain ⟨e, he, rfl⟩ := List.mem_map.mp hpart
    have hreads := readsAs_printed h e he
    exact ⟨hreads.nonempty, hreads.semicolon, hreads.comma⟩
  · split at hpart
    · obtain rfl := List.mem_singleton.mp hpart
      exact ⟨by decide +kernel, by decide +kernel, by decide +kernel⟩
    · simp at hpart

theorem split_print {cookie : HttpCookie} (h : Printable cookie) :
    split cookie.print 59 = cookie.printedParts := by
  have hparts := mem_printedParts h
  have hlast : cookie.printedParts.getLast? ≠ some [] :=
    fun hnil => (hparts [] (List.mem_of_mem_getLast? hnil)).1 rfl
  rw [split, print_eq, Lib.pieces_intercalate (fun p hp => (hparts p hp).2.1) hlast]
  simp

theorem comma_notMem_print {cookie : HttpCookie} (h : Printable cookie) :
    (44 : UInt8) ∉ cookie.print := by
  rw [print_eq]
  exact Lib.notMem_intercalate (by decide) fun part hpart => (mem_printedParts h part hpart).2.2

theorem mapM_readAttribute {entries : List (Text × Attribute)}
    (h : ∀ e ∈ entries, ReadsAs e.1 e.2) :
    (entries.map Prod.fst).mapM readAttribute = .ok (entries.map Prod.snd) := by
  induction entries with
  | nil => rfl
  | cons e entries ih =>
    rw [List.map_cons, List.mapM_cons, (h e (by simp)).reads,
      ih fun other hother => h other (by simp [hother])]
    rfl

/-- Up to the flag `HttpOnly`, what was printed is read. -/
theorem readCookie_print {cookie : HttpCookie} (h : Printable cookie) :
    readCookie cookie.print =
      if cookie.httpOnly then
        .error (.malformedCookie
          (Text.ofString "Malformed cookie, unknown attribute: HttpOnly"))
      else .ok ({ name := cookie.name, value := cookie.value }, cookie.printed.map Prod.snd) := by
  have hhttpOnly : readAttribute (Text.ofString "HttpOnly") = .error (.malformedCookie
      (Text.ofString "Malformed cookie, unknown attribute: HttpOnly")) := by decide +kernel
  have hread := mapM_readAttribute (readsAs_printed h)
  rw [readCookie, split_print h, printedParts]
  simp only [readNameValue_pair h.name h.dollar h.value, bind, Except.bind, List.mapM_append,
    hread]
  cases cookie.httpOnly with
  | true => simp only [if_true, List.mapM_cons, hhttpOnly, bind, Except.bind]
  | false =>
    simp only [Bool.false_eq_true, if_false, List.mapM_nil, pure, Except.pure, List.append_nil]

theorem parseCookie_print {cookie : HttpCookie} (h : Printable cookie) :
    parseCookie .server cookie.print =
      (readCookie cookie.print).map fun r => [r.2.foldl assign r.1] := by
  refine parseServerCookies_single (comma_notMem_print h) fun hnil => ?_
  have hsplit := split_print h
  rw [hnil] at hsplit
  cases hsplit

/-- The flag that the parser does not know. -/
theorem parse_print_httpOnly {cookie : HttpCookie} (h : Printable cookie)
    (hflag : cookie.httpOnly = true) :
    parseCookie .server cookie.print = .error (.malformedCookie
      (Text.ofString "Malformed cookie, unknown attribute: HttpOnly")) := by
  rw [parseCookie_print h, readCookie_print h, if_pos hflag]
  rfl

/-- **A printed server cookie comes back, with its flags set.** -/
theorem parse_print {cookie : HttpCookie} (h : Printable cookie)
    (hflag : cookie.httpOnly = false) :
    parseCookie .server cookie.print =
      .ok [{ cookie with secure := true, httpOnly := true }] := by
  rw [parseCookie_print h, readCookie_print h, if_neg (by simp [hflag])]
  exact congrArg (fun c => Except.ok [c]) (foldl_printed cookie)

/-- A cookie `a=b` for the domain `c`, with an age and without flags. -/
def plainCookie : HttpCookie :=
  { name := [97], value := [98], domain := [99], maxAge := 60, secure := false, httpOnly := false }

theorem printable_plainCookie : Printable plainCookie := by
  have hplain (c : UInt8) (hc : c ≠ 59 ∧ c ≠ 44 ∧ c ≠ 61 ∧ c ≠ 34 ∧ isBlank c = false) :
      PlainText [c] := by
    obtain ⟨hsemicolon, hcomma, hequals, hquote, hblank⟩ := hc
    exact ⟨by simp [hsemicolon.symm], by simp [hcomma.symm], by simp [hequals.symm],
      by simp [hquote.symm], by simp [hblank], by simp [hblank]⟩
  have hempty : PlainText [] := ⟨by simp, by simp, by simp, by simp, by simp, by simp⟩
  exact ⟨hplain 97 (by decide), by decide, by decide, hplain 98 (by decide), by decide,
    hplain 99 (by decide), hempty⟩

theorem parse_print_plainCookie :
    parseCookie .server plainCookie.print =
      .ok [{ plainCookie with secure := true, httpOnly := true }] :=
  parse_print printable_plainCookie rfl

/-- The cookie that is parsed is the one that was printed. -/
def RoundTrips (cookie : HttpCookie) : Prop :=
  parseCookie .server cookie.print = .ok [cookie]

/-- A flag that is not set is not printed, and comes back set. -/
theorem not_roundTrips_plainCookie : Printable plainCookie ∧ ¬ RoundTrips plainCookie := by
  refine ⟨printable_plainCookie, ?_⟩
  unfold RoundTrips
  decide +kernel

end Acatl.Net.HttpCookie

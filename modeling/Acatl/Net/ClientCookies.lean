/-
Acatl.Net.ClientCookies — client cookies that are written in any of the
admissible ways and parsed.

The loop of `parseClientCookies` goes through the parts between the separators
(`parseClientCookies_eq`), so that a text can be read part by part:

  `splitPart_written`     a part, whatever blanks and quotes it has.
  `foldlM_writtenCookie`  the parts of one cookie, which is the last one so far.
  `parse_written`         a list of cookies.
-/
import Acatl.Net.CookieRoundTrip

namespace Acatl.Net.HttpCookie

open StringHelper

/-! ## §1 The loop -/

/-- What ends a part. -/
def isSeparator (c : UInt8) : Bool := c = 59 || c = 44

theorem substr_of_le {s : Text} {pos count : Nat} (h : pos ≤ s.length) :
    substr s pos count = .ok ((s.drop pos).take count) := by
  rw [substr, if_pos h, Text.substr]

/-- The next part is the first one of the text from its position on. -/
theorem getNextPart_eq {pos : Nat} {s : Text} (hpos : pos ≤ s.length) :
    (∃ part, getNextPart pos s = (none, .ok part) ∧ (s.drop pos).splitOnP isSeparator = [part]) ∨
      ∃ part next, getNextPart pos s = (some next, .ok part) ∧
        (s.drop pos).splitOnP isSeparator = part :: (s.drop next).splitOnP isSeparator := by
  cases hfind : (s.drop pos).findIdx? isSeparator with
  | none =>
    refine .inl ⟨s.drop pos, ?_, ?_⟩
    · have hall : (s.drop pos).take s.length = s.drop pos :=
        List.take_of_length_le (by rw [List.length_drop]; omega)
      have hnone : (s.drop pos).findIdx? (fun c => c = 59 || c = 44) = none := hfind
      rw [getNextPart, hnone, substr_of_le hpos, hall]
    · exact List.splitOnP_eq_singleton fun c hc => List.findIdx?_eq_none_iff.mp hfind c hc
  | some n =>
    obtain ⟨hlt, hsep, hbefore⟩ := List.findIdx?_eq_some_iff_getElem.mp hfind
    refine .inr ⟨(s.drop pos).take n, pos + n + 1, ?_, ?_⟩
    · have hsome : (s.drop pos).findIdx? (fun c => c = 59 || c = 44) = some n := hfind
      simp only [getNextPart, hsome, substr_of_le hpos]
    · have hparts : s.drop pos = (s.drop pos).take n ++ (s.drop pos)[n] :: s.drop (pos + n + 1) := by
        have hcut := (List.take_append_drop n (s.drop pos)).symm
        rwa [List.drop_eq_getElem_cons hlt, List.drop_drop] at hcut
      have hplain : ∀ c ∈ (s.drop pos).take n, isSeparator c = false := by
        intro c hc
        obtain ⟨i, hi, rfl⟩ := List.getElem_of_mem hc
        rw [List.length_take] at hi
        rw [List.getElem_take]
        simpa using hbefore i (by omega)
      exact (congrArg (List.splitOnP isSeparator) hparts).trans
        (List.splitOnP_append_cons_of_forall_mem hplain _ hsep _)

/-- The loop from a position on. -/
theorem parseClientFrom_eq (cookie : Text) (pos : Nat) (cookies : List HttpCookie)
    (hpos : pos ≤ cookie.length) :
    parseClientFrom cookie pos cookies =
      ((cookie.drop pos).splitOnP isSeparator).foldlM addClientPart cookies := by
  rw [parseClientFrom]
  obtain ⟨part, hpart, hparts⟩ | ⟨part, next, hpart, hparts⟩ := getNextPart_eq hpos
  · have hnext : (getNextPart pos cookie).1 = none := by rw [hpart]
    rw [hparts, List.foldlM_cons, congrArg Prod.snd hpart]
    change addClientPart cookies part >>= _ = addClientPart cookies part >>= _
    refine bind_congr fun cookies => ?_
    split
    · rfl
    · rename_i next hsome
      rw [hnext] at hsome
      cases hsome
  · have hnext : (getNextPart pos cookie).1 = some next := by rw [hpart]
    obtain ⟨hlt, hle⟩ := getNextPart_lt hnext
    rw [hparts, List.foldlM_cons, congrArg Prod.snd hpart]
    change addClientPart cookies part >>= _ = addClientPart cookies part >>= _
    refine bind_congr fun cookies => ?_
    split
    · rename_i hnone
      rw [hnext] at hnone
      cases hnone
    · rename_i next' hsome
      obtain rfl : next = next' := Option.some.inj (hnext.symm.trans hsome)
      exact parseClientFrom_eq cookie next cookies hle
termination_by cookie.length - pos

/-- **The loop goes through the parts between the separators.** -/
theorem parseClientCookies_eq (cookie : Text) :
    parseClientCookies cookie = (cookie.splitOnP isSeparator).foldlM addClientPart [] :=
  parseClientFrom_eq cookie 0 [] (Nat.zero_le _)

/-! ## §2 Blanks and quotes -/

def Blank (s : Text) : Prop := ∀ c ∈ s, isBlank c = true

theorem PlainText.noSeparator {s : Text} (h : PlainText s) : ∀ c ∈ s, isSeparator c = false := by
  intro c hc
  have hsemicolon : c ≠ 59 := fun heq => h.semicolon (heq ▸ hc)
  have hcomma : c ≠ 44 := fun heq => h.comma (heq ▸ hc)
  simp [isSeparator, hsemicolon, hcomma]

theorem Blank.noSeparator {s : Text} (h : Blank s) : ∀ c ∈ s, isSeparator c = false := by
  intro c hc
  have hblank : c = 32 ∨ c = 9 := by simpa [isBlank] using h c hc
  rcases hblank with rfl | rfl <;> decide

theorem blank_nil : Blank [] := by simp [Blank]

theorem Blank.notMem {s : Text} (h : Blank s) {c : UInt8} (hc : isBlank c = false) : c ∉ s := by
  intro hmem
  rw [h c hmem] at hc
  cases hc

/-- Blanks around a text are cut off. -/
theorem trim_around {before s after : Text} (hbefore : Blank before) (hafter : Blank after)
    (hne : s ≠ []) (hfront : ∀ c ∈ s.head?, isBlank c = false)
    (hback : ∀ c ∈ s.getLast?, isBlank c = false) : trim (before ++ s ++ after) = s := by
  have hcore : Core s := ⟨hne, hfront, hback⟩
  exact StringHelper.trim_around hbefore hcore hafter

theorem PlainText.trim_around {before s after : Text} (h : PlainText s) (hbefore : Blank before)
    (hafter : Blank after) (hne : s ≠ []) : trim (before ++ s ++ after) = s :=
  HttpCookie.trim_around hbefore hafter hne h.front h.back

/-- The ways to write a part. -/
inductive WritesPart (key val : Text) : Text → Prop
  | plain {before after : Text} (hbefore : Blank before) (hafter : Blank after) :
      WritesPart key val (before ++ key ++ 61 :: (val ++ after))
  | quoted {before after : Text} (hbefore : Blank before) (hafter : Blank after) :
      WritesPart key val (before ++ key ++ 61 :: (34 :: (val ++ [34]) ++ after))

section

variable {key val part : Text}

theorem unquote_quoted (val : Text) : unquote (34 :: (val ++ [34])) = .ok val := by
  have hfront : Text.charAt (34 :: (val ++ [34])) 0 = 34 := rfl
  rw [unquote, if_pos hfront, substr_of_le (by simp)]
  simp

/-- `splitPart` sees through blanks and quotes. -/
theorem splitPart_written (hkey : PlainText key) (hkeyne : key ≠ []) (hval : PlainText val)
    (hvalne : val ≠ []) (h : WritesPart key val part) :
    splitPart part = .ok (tolower key, val) := by
  have hequals {before : Text} (hbefore : Blank before) : (61 : UInt8) ∉ before ++ key := by
    simp [hbefore.notMem (c := 61) (by decide), hkey.equals]
  have htrim {before : Text} (hbefore : Blank before) : trim (before ++ key) = key := by
    have haround := hkey.trim_around hbefore blank_nil hkeyne
    rwa [List.append_nil] at haround
  cases h with
  | @plain before after hbefore hafter =>
    have hvalue : trim (val ++ after) = val :=
      hval.trim_around blank_nil hafter hvalne
    rw [splitPart, findIdx?_equals (hequals hbefore)]
    simp only [substr_front, substr_behind, bind, Except.bind, hvalue,
      unquote_of_notMem hval.quote, htrim hbefore]
  | @quoted before after hbefore hafter =>
    have hlast : (34 :: (val ++ [34])).getLast? = some 34 := by
      rw [← List.cons_append, List.getLast?_concat]
    have hvalue : trim (34 :: (val ++ [34]) ++ after) = 34 :: (val ++ [34]) :=
      trim_around blank_nil hafter (by simp) (by simp [isBlank]) (by simp [hlast, isBlank])
    rw [splitPart, findIdx?_equals (hequals hbefore)]
    simp only [substr_front, substr_behind, bind, Except.bind, hvalue, unquote_quoted,
      htrim hbefore]

theorem WritesPart.noSeparator (hkey : PlainText key) (hval : PlainText val)
    (h : WritesPart key val part) : ∀ c ∈ part, isSeparator c = false := by
  intro c hc
  cases h with
  | plain hbefore hafter =>
    simp only [List.mem_append, List.mem_cons] at hc
    rcases hc with (hc | hc) | rfl | hc | hc
    · exact hbefore.noSeparator c hc
    · exact hkey.noSeparator c hc
    · decide
    · exact hval.noSeparator c hc
    · exact hafter.noSeparator c hc
  | quoted hbefore hafter =>
    simp only [List.mem_append, List.mem_cons, List.not_mem_nil, or_false] at hc
    rcases hc with (hc | hc) | rfl | (rfl | hc | rfl) | hc
    · exact hbefore.noSeparator c hc
    · exact hkey.noSeparator c hc
    · decide
    · decide
    · exact hval.noSeparator c hc
    · decide
    · exact hafter.noSeparator c hc

end

/-! ## §3 One part -/

section

variable {cookies : List HttpCookie} {cookie : HttpCookie} {part val : Text}

theorem modifyBack_concat (f : HttpCookie → HttpCookie) :
    modifyBack f (cookies ++ [cookie]) = .ok (cookies ++ [f cookie]) := by
  simp [modifyBack]

theorem plainText_of_decide {s : Text} (h : (∀ c ∈ s, isSeparator c = false) ∧ (61 : UInt8) ∉ s ∧
    (34 : UInt8) ∉ s ∧ (∀ c ∈ s.head?, isBlank c = false) ∧ ∀ c ∈ s.getLast?, isBlank c = false) :
    PlainText s where
  semicolon hc := by simpa [isSeparator] using h.1 59 hc
  comma hc := by simpa [isSeparator] using h.1 44 hc
  equals := h.2.1
  quote := h.2.2.1
  front := h.2.2.2.1
  back := h.2.2.2.2

def versionKey : Text := Text.ofString "$Version"
def domainKey : Text := Text.ofString "$Domain"
def pathKey : Text := Text.ofString "$Path"

theorem plainText_versionKey : PlainText versionKey := plainText_of_decide (by decide +kernel)
theorem plainText_domainKey : PlainText domainKey := plainText_of_decide (by decide +kernel)
theorem plainText_pathKey : PlainText pathKey := plainText_of_decide (by decide +kernel)
theorem plainText_one : PlainText (Text.ofString "1") := plainText_of_decide (by decide +kernel)

/-- A version in front of all cookies. -/
theorem addClientPart_version (h : WritesPart versionKey (Text.ofString "1") part) :
    addClientPart [] part = .ok [] := by
  have hkey : tolower versionKey = Text.ofString "$version" := by decide +kernel
  have hone : Text.ofString "1" ≠ [] := by decide +kernel
  have hsplit := splitPart_written plainText_versionKey (by decide +kernel) plainText_one hone h
  rw [hkey] at hsplit
  simp [addClientPart, hsplit, bind, Except.bind, hone]

theorem addClientPart_domain (hval : PlainText val) (hne : val ≠ [])
    (h : WritesPart domainKey val part) :
    addClientPart (cookies ++ [cookie]) part = .ok (cookies ++ [{ cookie with domain := val }]) := by
  have hkey : tolower domainKey = Text.ofString "$domain" := by decide +kernel
  have hversion : Text.ofString "$domain" ≠ Text.ofString "$version" := by decide +kernel
  have hsplit := splitPart_written plainText_domainKey (by decide +kernel) hval hne h
  rw [hkey] at hsplit
  simp [addClientPart, hsplit, bind, Except.bind, hne, hversion, modifyBack_concat]

theorem addClientPart_path (hval : PlainText val) (hne : val ≠ [])
    (h : WritesPart pathKey val part) :
    addClientPart (cookies ++ [cookie]) part = .ok (cookies ++ [{ cookie with path := val }]) := by
  have hkey : tolower pathKey = Text.ofString "$path" := by decide +kernel
  have hversion : Text.ofString "$path" ≠ Text.ofString "$version" := by decide +kernel
  have hdomain : Text.ofString "$path" ≠ Text.ofString "$domain" := by decide +kernel
  have hsplit := splitPart_written plainText_pathKey (by decide +kernel) hval hne h
  rw [hkey] at hsplit
  simp [addClientPart, hsplit, bind, Except.bind, hne, hversion, hdomain, modifyBack_concat]

/-- A name that is none of an attribute. -/
structure ClientName (name : Text) : Prop where
  plain : PlainText name
  nonempty : name ≠ []
  lower : ∀ c ∈ name, ¬ (65 ≤ c ∧ c ≤ 90)
  dollar : name.charAt 0 ≠ 36

theorem ClientName.tolower_eq {name : Text} (h : ClientName name) : tolower name = name := by
  have hsame : ∀ c ∈ name, (if 65 ≤ c ∧ c ≤ 90 then c + 32 else c) = id c :=
    fun c hc => if_neg (h.lower c hc)
  rw [tolower, List.map_congr_left hsame, List.map_id]

theorem addClientPart_name {name : Text} (hname : ClientName name) (hval : PlainText val)
    (hne : val ≠ []) (h : WritesPart name val part) :
    addClientPart cookies part = .ok (cookies ++ [{ name, value := val }]) := by
  have hdollar {key : Text} (hkey : key.charAt 0 = 36) : name ≠ key :=
    fun heq => hname.dollar (heq ▸ hkey)
  have hversion : name ≠ Text.ofString "$version" := hdollar (by decide +kernel)
  have hdomain : name ≠ Text.ofString "$domain" := hdollar (by decide +kernel)
  have hpath : name ≠ Text.ofString "$path" := hdollar (by decide +kernel)
  have hsplit := splitPart_written hname.plain hname.nonempty hval hne h
  rw [hname.tolower_eq] at hsplit
  simp [addClientPart, hsplit, bind, Except.bind, hne, hversion, hdomain, hpath, construct,
    hname.dollar]

end

/-! ## §4 Lists of cookies -/

/-- A cookie as a client sends it. -/
structure ClientCookie where
  name : Text
  value : Text
  domain : Option Text
  path : Option Text
  hname : ClientName name
  hvalue : PlainText value ∧ value ≠ []
  hdomain : ∀ d ∈ domain, PlainText d ∧ d ≠ []
  hpath : ∀ p ∈ path, PlainText p ∧ p ≠ []

namespace ClientCookie

def toCookie (c : ClientCookie) : HttpCookie :=
  { name := c.name, value := c.value, domain := c.domain.getD [], path := c.path.getD [] }

/-- The attributes that are written behind the name. -/
def entries (c : ClientCookie) : List (Text × Text) :=
  c.domain.toList.map (domainKey, ·) ++ c.path.toList.map (pathKey, ·)

end ClientCookie

/-- The parts of a cookie: its name, and its attributes in either order. -/
inductive WritesCookie (c : ClientCookie) : List Text → Prop
  | mk {part : Text} {parts : List Text} {entries : List (Text × Text)}
      (hname : WritesPart c.name c.value part)
      (horder : entries = c.entries ∨ entries = c.entries.reverse)
      (hparts : List.Forall₂ (fun e part => WritesPart e.1 e.2 part) entries parts) :
      WritesCookie c (part :: parts)

/-- The parts of some cookies. -/
inductive WritesCookies : List ClientCookie → List Text → Prop
  | nil : WritesCookies [] []
  | cons {c : ClientCookie} {cs : List ClientCookie} {parts rest : List Text}
      (hc : WritesCookie c parts) (hcs : WritesCookies cs rest) :
      WritesCookies (c :: cs) (parts ++ rest)

/-- Parts with a semicolon or a comma between each two of them. -/
inductive Joined : List Text → Text → Prop
  | single (part : Text) : Joined [part] part
  | cons {part text : Text} {parts : List Text} {c : UInt8} (hc : isSeparator c = true)
      (h : Joined parts text) : Joined (part :: parts) (part ++ c :: text)

/-- The texts for a list of cookies: first the version, or not, and then the cookies. -/
inductive Written (cs : List ClientCookie) : Text → Prop
  | plain {parts : List Text} {text : Text} (hcs : WritesCookies cs parts)
      (htext : Joined parts text) : Written cs text
  | versioned {version text : Text} {parts : List Text}
      (hversion : WritesPart versionKey (Text.ofString "1") version)
      (hcs : WritesCookies cs parts) (htext : Joined (version :: parts) text) : Written cs text

theorem Joined.splitOnP_eq {parts : List Text} {text : Text} (h : Joined parts text)
    (hparts : ∀ part ∈ parts, ∀ c ∈ part, isSeparator c = false) :
    text.splitOnP isSeparator = parts := by
  induction h with
  | single part => exact List.splitOnP_eq_singleton (hparts part (by simp))
  | @cons part text parts c hc h ih =>
    rw [List.splitOnP_append_cons_of_forall_mem (hparts part (by simp)) c hc,
      ih fun other hother => hparts other (by simp [hother])]

/-- A cookie with one more attribute. -/
def withEntry (cookie : HttpCookie) (e : Text × Text) : HttpCookie :=
  if e.1 = domainKey then { cookie with domain := e.2 } else { cookie with path := e.2 }

/-- What an attribute of a client cookie is. -/
structure IsEntry (e : Text × Text) : Prop where
  key : e.1 = domainKey ∨ e.1 = pathKey
  value : PlainText e.2
  value_ne : e.2 ≠ []

theorem IsEntry.plain_key {e : Text × Text} (h : IsEntry e) : PlainText e.1 := by
  rcases h.key with hkey | hkey
  · exact hkey ▸ plainText_domainKey
  · exact hkey ▸ plainText_pathKey

section

variable {c : ClientCookie} {cs : List ClientCookie} {cookies : List HttpCookie}
  {cookie : HttpCookie} {entries : List (Text × Text)} {parts : List Text}

theorem ClientCookie.isEntry (c : ClientCookie) : ∀ e ∈ c.entries, IsEntry e := by
  intro e he
  rcases List.mem_append.mp he with he | he
  · obtain ⟨d, hd, rfl⟩ := List.mem_map.mp he
    obtain ⟨hplain, hne⟩ := c.hdomain d (by simpa using hd)
    exact ⟨.inl rfl, hplain, hne⟩
  · obtain ⟨p, hp, rfl⟩ := List.mem_map.mp he
    obtain ⟨hplain, hne⟩ := c.hpath p (by simpa using hp)
    exact ⟨.inr rfl, hplain, hne⟩

theorem ClientCookie.isEntry_of_order {c : ClientCookie}
    (horder : entries = c.entries ∨ entries = c.entries.reverse) : ∀ e ∈ entries, IsEntry e := by
  intro e he
  rcases horder with rfl | rfl
  · exact c.isEntry e he
  · exact c.isEntry e (List.mem_reverse.mp he)

theorem addClientPart_entry {e : Text × Text} {part : Text} (he : IsEntry e)
    (h : WritesPart e.1 e.2 part) :
    addClientPart (cookies ++ [cookie]) part = .ok (cookies ++ [cookie.withEntry e]) := by
  have hother : pathKey ≠ domainKey := by decide +kernel
  rcases he.key with hkey | hkey
  · rw [hkey] at h
    rw [withEntry, if_pos hkey]
    exact addClientPart_domain he.value he.value_ne h
  · rw [hkey] at h
    rw [withEntry, hkey, if_neg hother]
    exact addClientPart_path he.value he.value_ne h

/-- The attributes go to the last cookie. -/
theorem foldlM_entries
    (h : List.Forall₂ (fun e part => WritesPart e.1 e.2 part) entries parts)
    (hentries : ∀ e ∈ entries, IsEntry e) :
    parts.foldlM addClientPart (cookies ++ [cookie]) =
      .ok (cookies ++ [entries.foldl withEntry cookie]) := by
  induction h generalizing cookie with
  | nil => rfl
  | @cons e part entries parts hpart h ih =>
    rw [List.foldlM_cons, addClientPart_entry (hentries e (by simp)) hpart]
    exact ih fun other hother => hentries other (by simp [hother])

/-- The order of the attributes does not matter. -/
theorem ClientCookie.foldl_withEntry
    (horder : entries = c.entries ∨ entries = c.entries.reverse) :
    entries.foldl withEntry { name := c.name, value := c.value } = c.toCookie := by
  have hother : pathKey ≠ domainKey := by decide +kernel
  rcases horder with rfl | rfl <;> obtain ⟨name, value, domain, path, -, -, -, -⟩ := c <;>
    cases domain <;> cases path <;>
      simp [ClientCookie.entries, ClientCookie.toCookie, withEntry, hother]

/-- The parts of a cookie. -/
theorem foldlM_writtenCookie (h : WritesCookie c parts) :
    parts.foldlM addClientPart cookies = .ok (cookies ++ [c.toCookie]) := by
  obtain ⟨hname, horder, hparts⟩ := h
  rw [List.foldlM_cons, addClientPart_name c.hname c.hvalue.1 c.hvalue.2 hname,
    ← ClientCookie.foldl_withEntry horder]
  exact foldlM_entries hparts (ClientCookie.isEntry_of_order horder)

theorem foldlM_writtenCookies (h : WritesCookies cs parts) :
    parts.foldlM addClientPart cookies =
      .ok (cookies ++ cs.map ClientCookie.toCookie) := by
  induction h generalizing cookies with
  | nil => exact congrArg Except.ok (List.append_nil _).symm
  | @cons c cs parts rest hc hcs ih =>
    rw [List.foldlM_append, foldlM_writtenCookie hc, List.map_cons]
    exact ih.trans (congrArg Except.ok (List.append_assoc ..))

theorem noSeparator_entries
    (h : List.Forall₂ (fun e part => WritesPart e.1 e.2 part) entries parts)
    (hentries : ∀ e ∈ entries, IsEntry e) : ∀ part ∈ parts, ∀ a ∈ part, isSeparator a = false := by
  induction h with
  | nil => simp
  | @cons e part entries parts hpart h ih =>
    have he := hentries e (by simp)
    intro other hother
    rcases List.mem_cons.mp hother with rfl | hother
    · exact hpart.noSeparator he.plain_key he.value
    · exact ih (fun e he => hentries e (by simp [he])) other hother

theorem WritesCookie.noSeparator (h : WritesCookie c parts) :
    ∀ part ∈ parts, ∀ a ∈ part, isSeparator a = false := by
  obtain ⟨hname, horder, hparts⟩ := h
  intro part hpart
  rcases List.mem_cons.mp hpart with rfl | hpart
  · exact hname.noSeparator c.hname.plain c.hvalue.1
  · exact noSeparator_entries hparts (ClientCookie.isEntry_of_order horder) part hpart

theorem WritesCookies.noSeparator (h : WritesCookies cs parts) :
    ∀ part ∈ parts, ∀ a ∈ part, isSeparator a = false := by
  induction h with
  | nil => simp
  | @cons c cs parts rest hc hcs ih =>
    intro part hpart
    rcases List.mem_append.mp hpart with hpart | hpart
    · exact hc.noSeparator part hpart
    · exact ih part hpart

/-! ## §5 Texts -/

/-- **The parser finds the cookies again, in their order, each with its own domain
and path.** -/
theorem parse_written {text : Text} (h : Written cs text) :
    parseCookie .client text = .ok (cs.map ClientCookie.toCookie) := by
  rw [parseCookie, parseClientCookies_eq]
  cases h with
  | plain hcs htext =>
    rw [htext.splitOnP_eq hcs.noSeparator]
    exact foldlM_writtenCookies hcs
  | @versioned version text parts hversion hcs htext =>
    have hparts : ∀ part ∈ version :: parts, ∀ a ∈ part, isSeparator a = false := by
      intro part hpart
      rcases List.mem_cons.mp hpart with rfl | hpart
      · exact hversion.noSeparator plainText_versionKey plainText_one
      · exact hcs.noSeparator part hpart
    rw [htext.splitOnP_eq hparts, List.foldlM_cons, addClientPart_version hversion]
    exact foldlM_writtenCookies hcs

/-- A cookie `a=b` for the domain `c` and the path `/`. -/
def shortCookie : ClientCookie where
  name := [97]
  value := [98]
  domain := some [99]
  path := some [47]
  hname := ⟨plainText_of_decide (by decide +kernel), by decide, by decide +kernel, by decide⟩
  hvalue := ⟨plainText_of_decide (by decide +kernel), by decide⟩
  hdomain := by
    intro d hd
    obtain rfl := Option.some.inj hd
    exact ⟨plainText_of_decide (by decide +kernel), by decide⟩
  hpath := by
    intro p hp
    obtain rfl := Option.some.inj hp
    exact ⟨plainText_of_decide (by decide +kernel), by decide⟩

/-- `a=b; $Path="/",$Domain=c`. -/
def shortText : Text :=
  [97, 61, 98] ++ 59 :: ([32] ++ pathKey ++ 61 :: [34, 47, 34] ++ 44 :: (domainKey ++ [61, 99]))

theorem written_shortCookie : Written [shortCookie] shortText := by
  have hspace : Blank [32] := by simp [Blank, isBlank]
  have hname : WritesPart [97] [98] [97, 61, 98] := .plain blank_nil blank_nil
  have hpath : WritesPart pathKey [47] ([32] ++ pathKey ++ 61 :: [34, 47, 34]) :=
    .quoted hspace blank_nil
  have hdomain : WritesPart domainKey [99] (domainKey ++ [61, 99]) := .plain blank_nil blank_nil
  have horder : [(pathKey, [47]), (domainKey, [99])] = shortCookie.entries.reverse := rfl
  exact .plain (.cons (.mk hname (.inr horder) (.cons hpath (.cons hdomain .nil))) .nil)
    (.cons (by decide) (.cons (by decide) (.single _)))

theorem parse_written_shortCookie :
    parseCookie .client shortText = .ok [shortCookie.toCookie] :=
  parse_written written_shortCookie

end

end Acatl.Net.HttpCookie

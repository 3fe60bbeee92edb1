/-
Acatl.Net.CookieLists — several server cookies in one string.

Every cookie is appended to the vector, but its attributes go to `front()`. The
first cookie of a list collects the attributes of all, and the others come back
as their names and values make them (`parseServerCookies_list`).

  `keepsOwn_iff`   when a list of cookies is read as its cookies one by one.
-/
import Acatl.Lib.LastWrite
import Acatl.Net.CookieAttributes
import Mathlib.Data.List.Forall2

namespace Acatl.Net.HttpCookie

open StringHelper

/-! ## §1 The fields of a cookie -/

/-- What an attribute writes into `_domain`. -/
def Attribute.domain? : Attribute → Option Text
  | .domain value => some value
  | _ => none

/-- What an attribute writes into `_path`. -/
def Attribute.path? : Attribute → Option Text
  | .path value => some value
  | _ => none

/-- What an attribute writes into `_maxAge`. -/
def Attribute.maxAge? : Attribute → Option UInt32
  | .maxAge age => some age
  | _ => none

/-- The same cookie, but for the flag `HttpOnly`. -/
structure Agrees (a b : HttpCookie) : Prop where
  name : a.name = b.name
  value : a.value = b.value
  domain : a.domain = b.domain
  path : a.path = b.path
  maxAge : a.maxAge = b.maxAge
  secure : a.secure = b.secure

theorem domain_foldl (as : List Attribute) (cookie : HttpCookie) :
    (as.foldl assign cookie).domain = Lib.written cookie.domain (as.filterMap Attribute.domain?) :=
  Lib.field_foldl assign domain _ (fun _ a => by cases a <;> rfl) as cookie

theorem path_foldl (as : List Attribute) (cookie : HttpCookie) :
    (as.foldl assign cookie).path = Lib.written cookie.path (as.filterMap Attribute.path?) :=
  Lib.field_foldl assign path _ (fun _ a => by cases a <;> rfl) as cookie

theorem maxAge_foldl (as : List Attribute) (cookie : HttpCookie) :
    (as.foldl assign cookie).maxAge = Lib.written cookie.maxAge (as.filterMap Attribute.maxAge?) :=
  Lib.field_foldl assign maxAge _ (fun _ a => by cases a <;> rfl) as cookie

/-- No attribute changes the name or the value, or clears the flag. -/
theorem foldl_unchanged (as : List Attribute) (cookie : HttpCookie) :
    (as.foldl assign cookie).name = cookie.name ∧ (as.foldl assign cookie).value = cookie.value ∧
      (cookie.secure = true → (as.foldl assign cookie).secure = true) := by
  induction as generalizing cookie with
  | nil => exact ⟨rfl, rfl, id⟩
  | cons a as ih =>
    obtain ⟨hname, hvalue, hsecure⟩ := ih (cookie.assign a)
    rw [List.foldl_cons, hname, hvalue]
    cases a <;> exact ⟨rfl, rfl, fun h => hsecure (by simp [assign, h])⟩

/-- Two lists of attributes make the same of a cookie if they leave the same in
each of the three fields. -/
theorem agrees_foldl (as bs : List Attribute) (name value : Text) :
    (as.foldl assign { name, value }).Agrees (bs.foldl assign { name, value }) ↔
      Lib.written [] (as.filterMap Attribute.domain?) =
          Lib.written [] (bs.filterMap Attribute.domain?) ∧
        Lib.written [] (as.filterMap Attribute.path?) =
          Lib.written [] (bs.filterMap Attribute.path?) ∧
        Lib.written 0xFFFFFFFF (as.filterMap Attribute.maxAge?) =
          Lib.written 0xFFFFFFFF (bs.filterMap Attribute.maxAge?) := by
  obtain ⟨hname, hvalue, hsecure⟩ := foldl_unchanged as { name, value }
  obtain ⟨hname', hvalue', hsecure'⟩ := foldl_unchanged bs { name, value }
  refine ⟨fun h => ⟨?_, ?_, ?_⟩, fun h => ?_⟩
  · simpa only [domain_foldl] using h.domain
  · simpa only [path_foldl] using h.path
  · simpa only [maxAge_foldl] using h.maxAge
  · obtain ⟨hdomain, hpath, hmaxAge⟩ := h
    refine ⟨hname.trans hname'.symm, hvalue.trans hvalue'.symm, ?_, ?_, ?_, ?_⟩
    · simpa only [domain_foldl] using hdomain
    · simpa only [path_foldl] using hpath
    · simpa only [maxAge_foldl] using hmaxAge
    · rw [hsecure rfl, hsecure' rfl]

/-! ## §2 One cookie -/

/-- The attributes of a string between commas: what stands behind its first
semicolon, part by part. -/
def attributes (cookieString : Text) : List Attribute :=
  (split cookieString 59).tail.filterMap fun part => (readAttribute part).toOption

theorem bind_eq_ok {α β : Type} {x : Except CookieFailure α} {f : α → Except CookieFailure β}
    {b : β} : x >>= f = .ok b ↔ ∃ a, x = .ok a ∧ f a = .ok b := by
  cases x <;> simp [bind, Except.bind]

theorem filterMap_toOption {parts : List Text} {as : List Attribute}
    (h : parts.mapM readAttribute = .ok as) :
    (parts.filterMap fun part => (readAttribute part).toOption) = as := by
  induction parts generalizing as with
  | nil =>
    cases h
    rfl
  | cons part parts ih =>
    rw [List.mapM_cons, bind_eq_ok] at h
    obtain ⟨a, hpart, h⟩ := h
    obtain ⟨rest, hrest, h⟩ := bind_eq_ok.mp h
    cases h
    simp [hpart, Except.toOption, ← ih hrest]

theorem readNameValue_bare {s part : Text} {cookie : HttpCookie}
    (h : readNameValue s part = .ok cookie) : ∃ name value, cookie = { name, value } := by
  rw [readNameValue] at h
  split at h
  · cases h
  · obtain ⟨name, -, h⟩ := bind_eq_ok.mp h
    obtain ⟨quoted, -, h⟩ := bind_eq_ok.mp h
    obtain ⟨value, -, h⟩ := bind_eq_ok.mp h
    rw [construct] at h
    split at h
    · cases h
    · cases h
      exact ⟨_, _, rfl⟩

/-- What is read of a string is a name and a value, and the attributes of the
string. -/
theorem readCookie_ok {s : Text} {r : HttpCookie × List Attribute} (h : readCookie s = .ok r) :
    (∃ name value, r.1 = { name, value }) ∧ attributes s = r.2 := by
  rw [readCookie] at h
  split at h
  · cases h
  · rename_i part parts hsplit
    obtain ⟨cookie, hcookie, h⟩ := bind_eq_ok.mp h
    obtain ⟨as, has, h⟩ := bind_eq_ok.mp h
    cases h
    refine ⟨readNameValue_bare hcookie, ?_⟩
    rw [attributes, hsplit]
    exact filterMap_toOption has

/-- A string without comma that is one cookie. -/
def OneCookie (s : Text) : Prop := (44 : UInt8) ∉ s ∧ ∃ own, parseCookie .server s = .ok [own]

theorem OneCookie.ne_nil {s : Text} (h : OneCookie s) : s ≠ [] := by
  intro hnil
  obtain ⟨own, hown⟩ := h.2
  rw [hnil] at hown
  cases hown

theorem OneCookie.read {s : Text} (h : OneCookie s) :
    ∃ r, readCookie s = .ok r ∧ parseCookie .server s = .ok [r.2.foldl assign r.1] := by
  obtain ⟨own, hown⟩ := h.2
  have hparse := parseServerCookies_single h.1 h.ne_nil
  rw [parseCookie, hparse] at hown
  cases hread : readCookie s with
  | error e =>
    rw [hread] at hown
    cases hown
  | ok r => exact ⟨r, rfl, by rw [parseCookie, hparse, hread]; rfl⟩

/-! ## §3 A list of cookies -/

/-- The cookie is the one that the string is on its own. -/
def IsOwn (s : Text) (cookie : HttpCookie) : Prop :=
  ∃ own, parseCookie .server s = .ok [own] ∧ cookie.Agrees own

/-- The strings, with commas between them, are the cookies that they are on
their own. -/
def KeepsOwn (cs : List Text) : Prop :=
  ∃ cookies, parseCookie .server ([44].intercalate cs) = .ok cookies ∧
    List.Forall₂ IsOwn cs cookies

/-- An attribute stays where it is: no cookie but the first has it, or none is
left with anything else than it has without it. -/
def Settled {α : Type} (write : Attribute → Option α) (initial : α) (cs : List Text) : Prop :=
  (∀ c ∈ cs.tail, (attributes c).filterMap write = []) ∨
    ∀ c ∈ cs, Lib.written initial ((attributes c).filterMap write) = initial

/-- No attribute goes from a later cookie to the first one and is seen there, or
missed where it was. -/
structure NothingMoves (cs : List Text) : Prop where
  domain : Settled Attribute.domain? [] cs
  path : Settled Attribute.path? [] cs
  maxAge : Settled Attribute.maxAge? 0xFFFFFFFF cs

/-- How a string is read, alone and in a list. -/
structure ReadAs (s : Text) (r : HttpCookie × List Attribute) : Prop where
  read : readCookie s = .ok r
  alone : parseCookie .server s = .ok [r.2.foldl assign r.1]
  bare : ∃ name value, r.1 = { name, value }
  attributes : attributes s = r.2

theorem exists_readAs {cs : List Text} (h : ∀ c ∈ cs, OneCookie c) :
    ∃ reads, List.Forall₂ ReadAs cs reads := by
  induction cs with
  | nil => exact ⟨[], .nil⟩
  | cons c cs ih =>
    obtain ⟨r, hread, halone⟩ := (h c (by simp)).read
    obtain ⟨hbare, hattributes⟩ := readCookie_ok hread
    obtain ⟨reads, hreads⟩ := ih fun d hd => h d (by simp [hd])
    exact ⟨r :: reads, .cons ⟨hread, halone, hbare, hattributes⟩ hreads⟩

/-- **The first cookie collects the attributes of all.** -/
theorem parseServerCookies_list {c : Text} {cs : List Text} {r : HttpCookie × List Attribute}
    {reads : List (HttpCookie × List Attribute)} (h : ∀ d ∈ c :: cs, OneCookie d)
    (hc : ReadAs c r) (hcs : List.Forall₂ ReadAs cs reads) :
    parseServerCookies ([44].intercalate (c :: cs)) =
      .ok ((r.2 ++ reads.flatMap Prod.snd).foldl assign r.1 :: reads.map Prod.fst) := by
  have hlast : (c :: cs).getLast? ≠ some [] :=
    fun hnil => (h [] (List.mem_of_mem_getLast? hnil)).ne_nil rfl
  have hsplit : split ([44].intercalate (c :: cs)) 44 = c :: cs := by
    rw [split, Lib.pieces_intercalate (fun d hd => (h d hd).1) hlast]
    simp
  have hloop := foldlM_addServerCookie (hcs.imp fun _ _ hd => hd.read) (r.2.foldl assign r.1) []
  rw [parseServerCookies, hsplit, List.foldlM_cons, addServerCookie_eq, hc.read,
    List.foldl_append]
  exact hloop

theorem isOwn_iff {s : Text} {r : HttpCookie × List Attribute} (h : ReadAs s r)
    (cookie : HttpCookie) : IsOwn s cookie ↔ cookie.Agrees (r.2.foldl assign r.1) := by
  refine ⟨fun hown => ?_, fun hagrees => ⟨_, h.alone, hagrees⟩⟩
  obtain ⟨own, hparse, hagrees⟩ := hown
  rw [h.alone] at hparse
  cases hparse
  exact hagrees

/-- The later cookies come back without attributes. -/
theorem forall₂_isOwn {cs : List Text} {reads : List (HttpCookie × List Attribute)}
    (h : List.Forall₂ ReadAs cs reads) :
    List.Forall₂ IsOwn cs (reads.map Prod.fst) ↔
      ∀ d ∈ cs, [] = Lib.written [] ((attributes d).filterMap Attribute.domain?) ∧
        [] = Lib.written [] ((attributes d).filterMap Attribute.path?) ∧
        0xFFFFFFFF = Lib.written 0xFFFFFFFF ((attributes d).filterMap Attribute.maxAge?) := by
  induction h with
  | nil => simp
  | @cons c r cs reads hc hcs ih =>
    obtain ⟨name, value, hbare⟩ := hc.bare
    have hone := agrees_foldl [] r.2 name value
    rw [List.foldl_nil, ← hbare, ← isOwn_iff hc, ← hc.attributes] at hone
    rw [List.map_cons, List.forall₂_cons, ih, hone]
    simp

theorem flatMap_attributes {cs : List Text} {reads : List (HttpCookie × List Attribute)}
    (h : List.Forall₂ ReadAs cs reads) : cs.flatMap attributes = reads.flatMap Prod.snd := by
  induction h with
  | nil => rfl
  | cons hc hcs ih => rw [List.flatMap_cons, List.flatMap_cons, hc.attributes, ih]

/-! ## §4 When every cookie keeps its own attributes -/

theorem settled_iff {α : Type} (write : Attribute → Option α) (initial : α) (c : Text)
    (cs : List Text) :
    Settled write initial (c :: cs) ↔
      Lib.written initial
          ((attributes c ++ cs.flatMap attributes).filterMap write) =
        Lib.written initial ((attributes c).filterMap write) ∧
      ∀ d ∈ cs, initial = Lib.written initial ((attributes d).filterMap write) := by
  have hall : (attributes c ++ cs.flatMap attributes).filterMap write =
      (attributes c).filterMap write ++
        (cs.map fun d => (attributes d).filterMap write).flatten := by
    rw [List.filterMap_append, List.filterMap_flatMap, List.flatMap_def]
  have hshared := Lib.shared_iff initial ((attributes c).filterMap write)
    (cs.map fun d => (attributes d).filterMap write)
  rw [← hall] at hshared
  simpa [Settled] using hshared.symm

/-- **Which lists of cookies are read as their cookies.** The attributes of the
later cookies go to the first one: for each of the three fields, either no later
cookie has an attribute for it, or every cookie ends up with the value that it
has without one. -/
theorem keepsOwn_iff {cs : List Text} (hne : cs ≠ []) (h : ∀ c ∈ cs, OneCookie c) :
    KeepsOwn cs ↔ NothingMoves cs := by
  obtain ⟨reads, hreads⟩ := exists_readAs h
  cases hreads with
  | nil => exact absurd rfl hne
  | @cons c r cs reads hc hcs =>
    obtain ⟨name, value, hbare⟩ := hc.bare
    -- the first cookie has the attributes of all, and the others have none
    have hkeeps : KeepsOwn (c :: cs) ↔
        IsOwn c ((r.2 ++ reads.flatMap Prod.snd).foldl assign r.1) ∧
          List.Forall₂ IsOwn cs (reads.map Prod.fst) := by
      rw [KeepsOwn, parseCookie, parseServerCookies_list h hc hcs, ← List.forall₂_cons]
      simp
    have hfirst := agrees_foldl (r.2 ++ reads.flatMap Prod.snd) r.2 name value
    rw [← hbare, ← isOwn_iff hc, ← hc.attributes, ← flatMap_attributes hcs] at hfirst
    rw [hkeeps, ← hc.attributes, ← flatMap_attributes hcs, hfirst, forall₂_isOwn hcs]
    refine ⟨fun hown => ?_, fun hnothing => ?_⟩
    · obtain ⟨⟨hdomain, hpath, hmaxAge⟩, hlater⟩ := hown
      exact ⟨(settled_iff _ _ c cs).mpr ⟨hdomain, fun d hd => (hlater d hd).1⟩,
        (settled_iff _ _ c cs).mpr ⟨hpath, fun d hd => (hlater d hd).2.1⟩,
        (settled_iff _ _ c cs).mpr ⟨hmaxAge, fun d hd => (hlater d hd).2.2⟩⟩
    · obtain ⟨hdomain, hdomains⟩ := (settled_iff _ _ c cs).mp hnothing.domain
      obtain ⟨hpath, hpaths⟩ := (settled_iff _ _ c cs).mp hnothing.path
      obtain ⟨hmaxAge, hmaxAges⟩ := (settled_iff _ _ c cs).mp hnothing.maxAge
      exact ⟨⟨hdomain, hpath, hmaxAge⟩, fun d hd => ⟨hdomains d hd, hpaths d hd, hmaxAges d hd⟩⟩

/-- Two cookies with a path each. -/
def twoPaths : List Text := [Text.ofString "a=b;Path=/x", Text.ofString "c=d;Path=/y"]

theorem oneCookie_twoPaths : ∀ c ∈ twoPaths, OneCookie c := by
  intro c hc
  rw [twoPaths, List.mem_cons, List.mem_singleton] at hc
  rcases hc with rfl | rfl
  · exact ⟨by decide +kernel,
      { name := [97], value := [98], path := Text.ofString "/x" }, by decide +kernel⟩
  · exact ⟨by decide +kernel,
      { name := [99], value := [100], path := Text.ofString "/y" }, by decide +kernel⟩

theorem keepsOwn_iff_twoPaths :
    (∀ c ∈ twoPaths, OneCookie c) ∧ (KeepsOwn twoPaths ↔ NothingMoves twoPaths) :=
  ⟨oneCookie_twoPaths, keepsOwn_iff (by simp [twoPaths]) oneCookie_twoPaths⟩

/-- The path of the second cookie replaces that of the first one, and is missing
in the second. -/
theorem not_keepsOwn_twoPaths : (∀ c ∈ twoPaths, OneCookie c) ∧ ¬ KeepsOwn twoPaths := by
  refine ⟨oneCookie_twoPaths, fun hkeeps => ?_⟩
  obtain ⟨cookies, hparse, hown⟩ := hkeeps
  have htext : parseCookie .server ([44].intercalate twoPaths) =
      .ok [{ name := [97], value := [98], path := Text.ofString "/y" },
        { name := [99], value := [100] }] := by decide +kernel
  have hsecond : parseCookie .server (Text.ofString "c=d;Path=/y") =
      .ok [{ name := [99], value := [100], path := Text.ofString "/y" }] := by decide +kernel
  rw [htext] at hparse
  cases hparse
  rw [twoPaths, List.forall₂_cons, List.forall₂_cons] at hown
  obtain ⟨own, hparse, hagrees⟩ := hown.2.1
  rw [hsecond] at hparse
  cases hparse
  exact absurd hagrees.path (by decide +kernel)

end Acatl.Net.HttpCookie

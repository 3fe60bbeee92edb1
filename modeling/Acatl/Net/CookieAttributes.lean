/-
Acatl.Net.CookieAttributes — what a server cookie says, apart from where the
parser puts it.

A string between commas is a name with a value and a list of attributes
(`readCookie`). Reading it does not depend on the cookies before it: the loops of
`parseServerCookies` read it and carry all its attributes out on the first
cookie (`addServerCookie_eq`).
-/
import Acatl.Net.HttpCookie

namespace Acatl.Net.HttpCookie

open StringHelper

/-! ## §1 Attributes -/

/-- An attribute that has been understood. -/
inductive Attribute where
  | domain (value : Text)
  | path (value : Text)
  | maxAge (age : UInt32)
  | version
  | secure
  deriving DecidableEq

/-- A cookie with one more attribute. -/
def assign (cookie : HttpCookie) : Attribute → HttpCookie
  | .domain value => { cookie with domain := value }
  | .path value => { cookie with path := value }
  | .maxAge age => { cookie with maxAge := age }
  | .version => cookie
  | .secure => { cookie with secure := true }

/-- The attribute that a part stands for. -/
def readAttribute (part : Text) : Except CookieFailure Attribute := do
  let (attr, val) ← splitAttribute part
  if attr = Text.ofString "domain" then .ok (.domain val)
  else if attr = Text.ofString "path" then .ok (.path val)
  else if attr = Text.ofString "max-age" then do
    let number ← stoul val
    let age ← numericCast number
    .ok (.maxAge age)
  else if attr = Text.ofString "version" then
    if val ≠ Text.ofString "1" then
      .error (.malformedCookie (Text.ofString "Cookie has wrong version: " ++ part))
    else .ok .version
  else if attr = Text.ofString "secure" then .ok .secure
  else
    .error (.malformedCookie
      (Text.ofString "Malformed cookie, unknown attribute: " ++ part))

/-- The inner loop reads an attribute and carries it out on the first cookie. -/
theorem setAttribute_eq (front : HttpCookie) (cookies : List HttpCookie) (part : Text) :
    setAttribute (front :: cookies) part =
      (readAttribute part).map fun a => front.assign a :: cookies := by
  rw [setAttribute, readAttribute]
  cases splitAttribute part with
  | error e => rfl
  | ok entry =>
    obtain ⟨attr, val⟩ := entry
    simp only [bind, Except.bind]
    split
    · rfl
    split
    · rfl
    split
    · cases stoul val with
      | error e => rfl
      | ok number => cases hage : numericCast number <;> simp only [hage] <;> rfl
    split
    · split <;> rfl
    split <;> rfl

/-- The whole inner loop. -/
theorem foldlM_setAttribute (front : HttpCookie) (cookies : List HttpCookie)
    (parts : List Text) :
    parts.foldlM setAttribute (front :: cookies) =
      (parts.mapM readAttribute).map fun as => as.foldl assign front :: cookies := by
  induction parts generalizing front with
  | nil => rfl
  | cons part parts ih =>
    rw [List.foldlM_cons, List.mapM_cons, setAttribute_eq]
    cases readAttribute part with
    | error e => rfl
    | ok a =>
      have hstep := ih (front.assign a)
      cases hrest : parts.mapM readAttribute with
      | error e => rw [hrest] at hstep; exact hstep
      | ok as => rw [hrest] at hstep; exact hstep

/-! ## §2 One string between commas -/

/-- A cookie as its name and value make it, and its attributes. -/
def readCookie (cookieString : Text) : Except CookieFailure (HttpCookie × List Attribute) :=
  match split cookieString 59 with
  | [] => .error .undefined
  | part :: parts => do
    let cookie ← readNameValue cookieString part
    let attributes ← parts.mapM readAttribute
    .ok (cookie, attributes)

/-- Attributes carried out on the first of some cookies. -/
def assignFront (attributes : List Attribute) : List HttpCookie → List HttpCookie
  | [] => []
  | front :: cookies => attributes.foldl assign front :: cookies

/-- **The outer loop reads a string, appends the cookie, and carries out its
attributes on the first one.** -/
theorem addServerCookie_eq (cookies : List HttpCookie) (cookieString : Text) :
    addServerCookie cookies cookieString =
      (readCookie cookieString).map fun r => assignFront r.2 (cookies ++ [r.1]) := by
  rw [addServerCookie, readCookie]
  cases split cookieString 59 with
  | nil => rfl
  | cons part parts =>
    cases hname : readNameValue cookieString part with
    | error e => simp only [hname]; rfl
    | ok cookie =>
      obtain ⟨front, rest, hfront⟩ : ∃ front rest, cookies ++ [cookie] = front :: rest :=
        List.exists_cons_of_ne_nil (by simp)
      have hloop := foldlM_setAttribute front rest parts
      simp only [hname]
      cases hrest : parts.mapM readAttribute with
      | error e =>
        rw [hrest, ← hfront] at hloop
        exact hloop
      | ok as =>
        rw [hrest, ← hfront] at hloop
        refine hloop.trans (congrArg Except.ok ?_)
        simp only [hfront, assignFront]

/-- The outer loop behind the first cookie. -/
theorem foldlM_addServerCookie {strings : List Text} {reads : List (HttpCookie × List Attribute)}
    (h : List.Forall₂ (fun s r => readCookie s = .ok r) strings reads) (front : HttpCookie)
    (cookies : List HttpCookie) :
    strings.foldlM addServerCookie (front :: cookies) =
      .ok ((reads.flatMap Prod.snd).foldl assign front :: (cookies ++ reads.map Prod.fst)) := by
  induction h generalizing front cookies with
  | nil => simp [List.foldlM_nil, pure, Except.pure]
  | @cons s r strings reads hs h ih =>
    rw [List.foldlM_cons, addServerCookie_eq, hs]
    have hrest := ih (r.2.foldl assign front) (cookies ++ [r.1])
    rw [List.flatMap_cons, List.foldl_append, List.map_cons, List.append_cons]
    exact hrest

/-- A string without comma. -/
theorem parseServerCookies_single {s : Text} (hcomma : (44 : UInt8) ∉ s) (hne : s ≠ []) :
    parseServerCookies s = (readCookie s).map fun r => [r.2.foldl assign r.1] := by
  have hsplit : split s 44 = [s] := by
    simp [split, Lib.pieces_single hcomma hne]
  rw [parseServerCookies, hsplit, List.foldlM_cons, addServerCookie_eq]
  cases readCookie s <;> rfl

end Acatl.Net.HttpCookie

/-
Acatl.Net.HttpCookie — `HttpCookie` of `http_cookie.h` and `http_cookie.cpp`.

The parsers call parts of the standard library that throw exceptions of their
own, and the server's parser takes the first element of a vector that may be
empty. Both are part of the result (`CookieFailure`).
-/
import Acatl.StringHelper

namespace Acatl.Net

open StringHelper

/-! ## §1 Failures -/

/-- How `parseCookie` fails. -/
inductive CookieFailure where
  /-- `MalformedCookieException`. -/
  | malformedCookie (message : Text)
  /-- `BadNumericCast`. -/
  | badNumericCast (message : Text)
  /-- `std::invalid_argument`. -/
  | invalidArgument
  /-- `std::out_of_range`. -/
  | outOfRange
  /-- An element of an empty vector. -/
  | undefined
  deriving DecidableEq

/-- A decimal number, as a stream and `std::to_string` write it. -/
def decimal (n : Nat) : Text := (Nat.toDigits 10 n).map fun c => UInt8.ofNat c.toNat

/-- `substr(pos, count)`; a start behind the end throws. -/
def substr (s : Text) (pos : Nat) (count : Nat := s.length) : Except CookieFailure Text :=
  if pos ≤ s.length then .ok (s.substr pos count) else .error .outOfRange

/-- `std::isdigit`. -/
def isDigit (c : UInt8) : Bool := 48 ≤ c && c ≤ 57

/-- `std::stoul`: a minus sign negates within the 64 bits of an `unsigned long`. -/
def stoul (s : Text) : Except CookieFailure Nat :=
  let s := s.dropWhile isSpace
  let negative := s.head? = some 45
  let s := if s.head? = some 43 ∨ s.head? = some 45 then s.tail else s
  let digits := s.takeWhile isDigit
  let value := digits.foldl (fun v c => 10 * v + (c.toNat - 48)) 0
  if digits = [] then .error .invalidArgument
  else if UInt64.size ≤ value then .error .outOfRange
  else .ok (if negative then (UInt64.size - value) % UInt64.size else value)

/-- `numeric_cast<uint32_t>` of an `unsigned long`. -/
def numericCast (val : Nat) : Except CookieFailure UInt32 :=
  if UInt32.size - 1 < val then
    .error (.badNumericCast (Text.ofString "Value out of target range: " ++ decimal val ++
      Text.ofString " to unsigned int"))
  else .ok (UInt32.ofNat val)

/-! ## §2 The cookie -/

/-- `HttpCookie`. -/
structure HttpCookie where
  name : Text
  value : Text
  domain : Text := []
  path : Text := []
  maxAge : UInt32 := 0xFFFFFFFF
  secure : Bool := true
  httpOnly : Bool := true
  deriving DecidableEq

/-- `CookieType`. -/
inductive CookieType where
  | server
  | client
  deriving DecidableEq

namespace HttpCookie

/-- The constructor. -/
def construct (name value : Text) : Except CookieFailure HttpCookie :=
  if name.charAt 0 = 36 then
    .error (.malformedCookie (Text.ofString "Cookie names may not start with a '$'"))
  else .ok { name, value }

/-- `operator<<`. -/
def print (cookie : HttpCookie) : Text :=
  cookie.name ++ Text.ofString "=" ++ cookie.value ++ Text.ofString ";Version=1" ++
    (if cookie.domain ≠ [] then Text.ofString ";Domain=" ++ cookie.domain else []) ++
    (if cookie.path ≠ [] then Text.ofString ";Path=" ++ cookie.path else []) ++
    (if cookie.maxAge < 0xFFFFFFFF then Text.ofString ";Max-Age=" ++ decimal cookie.maxAge.toNat
      else []) ++
    (if cookie.secure then Text.ofString ";Secure" else []) ++
    (if cookie.httpOnly then Text.ofString ";HttpOnly" else [])

/-! ## §3 What both parsers do -/

/-- `trim_right(trim_left(s))`. -/
def trim (s : Text) : Text := trimRight (trimLeft s)

/-- A value in double quotes loses them. A single quote has no other end to cut
off: the count wraps around, and nothing is left. -/
def unquote (value : Text) : Except CookieFailure Text :=
  if value.charAt 0 = 34 then substr value 1 (value.length - 2) else .ok value

/-- `cookies.front()`, to change it. -/
def modifyFront (f : HttpCookie → HttpCookie) :
    List HttpCookie → Except CookieFailure (List HttpCookie)
  | [] => .error .undefined
  | cookie :: cookies => .ok (f cookie :: cookies)

/-- `cookies.back()`, to change it. -/
def modifyBack (f : HttpCookie → HttpCookie) (cookies : List HttpCookie) :
    Except CookieFailure (List HttpCookie) :=
  match cookies.getLast? with
  | none => .error .undefined
  | some cookie => .ok (cookies.dropLast ++ [f cookie])

/-! ## §4 parseServerCookies -/

/-- An attribute and its value, which is empty without `'='`; then the attribute
is not trimmed. -/
def splitAttribute (part : Text) : Except CookieFailure (Text × Text) :=
  match part.findIdx? (· = 61) with
  | some p => do
    let attr ← substr part 0 p
    let val ← substr part (p + 1)
    let val ← unquote (trim val)
    .ok (tolower (trim attr), val)
  | none => .ok (tolower part, [])

/-- The inner loop for one part: the attribute goes to the first cookie. -/
def setAttribute (cookies : List HttpCookie) (part : Text) :
    Except CookieFailure (List HttpCookie) := do
  let (attr, val) ← splitAttribute part
  if attr = Text.ofString "domain" then
    modifyFront (fun cookie => { cookie with domain := val }) cookies
  else if attr = Text.ofString "path" then
    modifyFront (fun cookie => { cookie with path := val }) cookies
  else if attr = Text.ofString "max-age" then do
    let number ← stoul val
    let age ← numericCast number
    modifyFront (fun cookie => { cookie with maxAge := age }) cookies
  else if attr = Text.ofString "version" then
    if val ≠ Text.ofString "1" then
      .error (.malformedCookie (Text.ofString "Cookie has wrong version: " ++ part))
    else .ok cookies
  else if attr = Text.ofString "secure" then
    modifyFront (fun cookie => { cookie with secure := true }) cookies
  else
    .error (.malformedCookie
      (Text.ofString "Malformed cookie, unknown attribute: " ++ part))

/-- The part with the name and the value. -/
def readNameValue (cookieString part : Text) : Except CookieFailure HttpCookie :=
  match part.findIdx? (· = 61) with
  | none => .error (.malformedCookie (Text.ofString "Malformed cookie: " ++ cookieString))
  | some n => do
    let name ← substr part 0 n
    let value ← substr part (n + 1)
    let value ← unquote (trim value)
    construct (trim name) value

/-- The outer loop for one string between commas. -/
def addServerCookie (cookies : List HttpCookie) (cookieString : Text) :
    Except CookieFailure (List HttpCookie) :=
  match split cookieString 59 with
  | [] => .error .undefined
  | part :: parts => do
    let cookie ← readNameValue cookieString part
    parts.foldlM setAttribute (cookies ++ [cookie])

/-- `parseServerCookies`. -/
def parseServerCookies (cookie : Text) : Except CookieFailure (List HttpCookie) :=
  (split cookie 44).foldlM addServerCookie []

/-! ## §5 parseClientCookies -/

/-- `getNextPart`: where the next part begins, unless this one is the last, and
the part. -/
def getNextPart (pos : Nat) (s : Text) : Option Nat × Except CookieFailure Text :=
  match (s.drop pos).findIdx? fun c => c = 59 || c = 44 with
  | none => (none, substr s pos)
  | some n => (some (pos + n + 1), substr s pos n)

/-- `splitPart`. -/
def splitPart (part : Text) : Except CookieFailure (Text × Text) :=
  match part.findIdx? (· = 61) with
  | none => .ok (trim part, [])
  | some p => do
    let val ← substr part (p + 1)
    let val ← unquote (trim val)
    let first ← substr part 0 p
    .ok (tolower (trim first), val)

/-- The loop for one part: an attribute goes to the last cookie. -/
def addClientPart (cookies : List HttpCookie) (part : Text) :
    Except CookieFailure (List HttpCookie) := do
  let (first, second) ← splitPart part
  if second = [] then
    .error (.malformedCookie (Text.ofString "Malformed client cookie: " ++ part))
  else if first = Text.ofString "$version" then
    if cookies ≠ [] then
      .error (.malformedCookie
        (Text.ofString "Malformed client cookie: $Version has to be the first attribute"))
    else if second ≠ Text.ofString "1" then
      .error (.malformedCookie (Text.ofString "Cookie has wrong version: " ++ part))
    else .ok cookies
  else if first = Text.ofString "$domain" then
    if cookies = [] then
      .error (.malformedCookie (Text.ofString "Malformed client cookie: no name=value set"))
    else modifyBack (fun cookie => { cookie with domain := second }) cookies
  else if first = Text.ofString "$path" then
    if cookies = [] then
      .error (.malformedCookie (Text.ofString "Malformed client cookie: no name=value set"))
    else modifyBack (fun cookie => { cookie with path := second }) cookies
  else do
    let cookie ← construct first second
    .ok (cookies ++ [cookie])

/-- The next part begins behind this one, and at most at the end. -/
theorem getNextPart_lt {pos next : Nat} {s : Text} (h : (getNextPart pos s).1 = some next) :
    pos < next ∧ next ≤ s.length := by
  rw [getNextPart] at h
  split at h
  · cases h
  · rename_i n hn
    have hlt : n < (s.drop pos).length := (List.findIdx?_eq_some_iff_getElem.mp hn).1
    rw [List.length_drop] at hlt
    have hnext : pos + n + 1 = next := Option.some.inj h
    omega

/-- The loop of `parseClientCookies` from a position on. -/
def parseClientFrom (cookie : Text) (pos : Nat) (cookies : List HttpCookie) :
    Except CookieFailure (List HttpCookie) := do
  let part ← (getNextPart pos cookie).2
  let cookies ← addClientPart cookies part
  match _h : (getNextPart pos cookie).1 with
  | none => .ok cookies
  | some next => parseClientFrom cookie next cookies
termination_by cookie.length - pos
decreasing_by
  have := getNextPart_lt _h
  omega

/-- `parseClientCookies`. -/
def parseClientCookies (cookie : Text) : Except CookieFailure (List HttpCookie) :=
  parseClientFrom cookie 0 []

/-- `parseCookie`. -/
def parseCookie (type : CookieType) (cookie : Text) : Except CookieFailure (List HttpCookie) :=
  match type with
  | .server => parseServerCookies cookie
  | .client => parseClientCookies cookie

end HttpCookie

end Acatl.Net

/-
Acatl.Net.HttpSessions — `HttpSession` and `HttpSessionManager`.

The manager hands out references: to a session of its map, or to the one invalid
session that all unknown and expired ids share. A reference to a session that has
been erased from the map leads nowhere; a call through one has no answer, and
`Alive` is the condition that there is no such call.

An id that `UuidGenerator` has generated is part of the call that asks for it,
and so are the readings of the clock.
-/
import Mathlib.Logic.Function.Basic
import Acatl.Lib.Machine
import Acatl.Text

namespace Acatl.Net

/-- What `Uuid::toString` returns. -/
abbrev UuidText := { text : Text // text.length = 36 }

/-! ## §1 HttpSession -/

/-- `HttpSession`. -/
structure HttpSession where
  id : Text
  isNew : Bool
  valid : Bool
  isSecure : Bool
  timestamp : Int
  values : Text → Option Text

namespace HttpSession

/-- The constructor, at a time. -/
def construct (id : Text) (secure : Bool) (now : Int) : HttpSession where
  id := id
  isNew := true
  valid := true
  isSecure := secure
  timestamp := now
  values := fun _ => none

/-- `isValid`. -/
def isValid (s : HttpSession) : Bool := s.id ≠ [] && s.valid

/-- `value(key)`. -/
def value (s : HttpSession) (key : Text) : Text := (s.values key).getD []

/-- `value(key, value)`: `insert`, which does nothing if the key is there. -/
def setValue (s : HttpSession) (key value : Text) : HttpSession :=
  if (s.values key).isNone then { s with values := Function.update s.values key (some value) }
  else s

/-- `hasValue`. -/
def hasValue (s : HttpSession) (key : Text) : Bool := (s.values key).isSome

/-- `invalidate`. -/
def invalidate (s : HttpSession) : HttpSession := { s with values := fun _ => none, valid := false }

@[simp] theorem setValue_id (s : HttpSession) (key value : Text) :
    (s.setValue key value).id = s.id := by
  rw [setValue]
  split <;> rfl

@[simp] theorem setValue_valid (s : HttpSession) (key value : Text) :
    (s.setValue key value).valid = s.valid := by
  rw [setValue]
  split <;> rfl

@[simp] theorem setValue_timestamp (s : HttpSession) (key value : Text) :
    (s.setValue key value).timestamp = s.timestamp := by
  rw [setValue]
  split <;> rfl

end HttpSession

/-! ## §2 HttpSessionManager -/

/-- A reference to a session: to that of an id in the map, or to the invalid one,
which was handed out for an id. -/
inductive Ref where
  | session (id : Text)
  | invalid (id : Text)
  deriving DecidableEq

/-- The id that a reference was obtained for. -/
def Ref.id : Ref → Text
  | .session id => id
  | .invalid id => id

/-- `HttpSessionManager`, with the invalid session of `sessionForId`. -/
structure HttpSessionManager where
  sessionTimeout : Int
  sessions : Text → Option HttpSession
  invalidSession : HttpSession

inductive Call where
  | createSession (uuid : UuidText) (secure : Bool) (now : Int)
  | sessionForId (id : Text) (now later : Int)
  | invalidate (ref : Ref)
  | setValue (ref : Ref) (key value : Text)
  | value (ref : Ref) (key : Text)
  deriving DecidableEq

/-- What a call returns; a session with its `isValid()`. -/
inductive Answer where
  | session (ref : Ref) (isValid : Bool)
  | text (value : Text)
  | done
  | undefined
  deriving DecidableEq

namespace HttpSessionManager

/-- The constructor, with the invalid session that the first `sessionForId`
creates. -/
def construct (sessionTimeout : Int) (invalidId : UuidText) (now : Int) : HttpSessionManager where
  sessionTimeout := sessionTimeout
  sessions := fun _ => none
  invalidSession := { HttpSession.construct invalidId false now with valid := false }

/-- The session that a reference leads to. -/
def deref (m : HttpSessionManager) : Ref → Option HttpSession
  | .session id => m.sessions id
  | .invalid _ => some m.invalidSession

/-- The manager after a change of the session that a reference leads to. -/
def store (m : HttpSessionManager) (s : HttpSession) : Ref → HttpSessionManager
  | .session id => { m with sessions := Function.update m.sessions id (some s) }
  | .invalid _ => { m with invalidSession := s }

section

variable (m : HttpSessionManager) (s : HttpSession) (ref : Ref) (id : Text)

@[simp] theorem store_timeout : (m.store s ref).sessionTimeout = m.sessionTimeout := by
  cases ref <;> rfl

@[simp] theorem store_sessions_self : (m.store s (.session id)).sessions id = some s :=
  Function.update_self ..

theorem store_sessions_of_ne {other : Text} (h : other ≠ id) :
    (m.store s (.session id)).sessions other = m.sessions other := Function.update_of_ne h ..

@[simp] theorem store_invalid_sessions : (m.store s (.invalid id)).sessions = m.sessions := rfl

@[simp] theorem store_session_invalidSession :
    (m.store s (.session id)).invalidSession = m.invalidSession := rfl

@[simp] theorem store_invalid_invalidSession : (m.store s (.invalid id)).invalidSession = s := rfl

end

/-- `_sessions.erase(id)`. -/
def erase (m : HttpSessionManager) (id : Text) : HttpSessionManager :=
  { m with sessions := Function.update m.sessions id none }

@[simp] theorem erase_sessions_self (m : HttpSessionManager) (id : Text) :
    (m.erase id).sessions id = none := Function.update_self ..

theorem erase_sessions_of_ne (m : HttpSessionManager) {id other : Text} (h : other ≠ id) :
    (m.erase id).sessions other = m.sessions other := Function.update_of_ne h ..

/-- `createSession`; `insert` leaves a session that is there. -/
def createSession (m : HttpSessionManager) (uuid : UuidText) (secure : Bool) (now : Int) :
    Answer × HttpSessionManager :=
  match m.sessions uuid with
  | some session => (.session (.session uuid) session.isValid, m)
  | none =>
    let session := HttpSession.construct uuid secure now
    (.session (.session uuid) session.isValid, m.store session (.session uuid))

/-- `sessionForId`, with its two readings of the clock. -/
def sessionForId (m : HttpSessionManager) (id : Text) (now later : Int) :
    Answer × HttpSessionManager :=
  let invalid := Answer.session (.invalid id) m.invalidSession.isValid
  match m.sessions id with
  | none => (invalid, m)
  | some session =>
    if session.isValid then
      if now < session.timestamp + m.sessionTimeout then
        let session := { session with isNew := false, timestamp := later }
        (.session (.session id) session.isValid, m.store session (.session id))
      else (invalid, m.erase id)
    else (invalid, m.erase id)

/-- `invalidate`. -/
def invalidate (m : HttpSessionManager) (ref : Ref) (session : HttpSession) : HttpSessionManager :=
  if (m.sessions session.id).isSome then m.store session.invalidate ref else m

/-- One call. -/
def call : Lib.Machine HttpSessionManager Call Answer
  | m, .createSession uuid secure now => m.createSession uuid secure now
  | m, .sessionForId id now later => m.sessionForId id now later
  | m, .invalidate ref =>
    match m.deref ref with
    | none => (.undefined, m)
    | some session => (.done, m.invalidate ref session)
  | m, .setValue ref key value =>
    match m.deref ref with
    | none => (.undefined, m)
    | some session => (.done, m.store (session.setValue key value) ref)
  | m, .value ref key =>
    match m.deref ref with
    | none => (.undefined, m)
    | some session => (.text (session.value key), m)

section

variable {m : HttpSessionManager}

theorem call_createSession {uuid : UuidText} (hnone : m.sessions uuid = none) (secure : Bool)
    (now : Int) :
    (call m (.createSession uuid secure now)).2 =
      m.store (HttpSession.construct uuid secure now) (.session uuid) := by
  rw [call, createSession, hnone]

theorem call_invalidate {id : Text} {session : HttpSession}
    (hsession : m.sessions id = some session) (hid : session.id = id) :
    call m (.invalidate (.session id)) = (.done, m.store session.invalidate (.session id)) := by
  simp [call, deref, hsession, invalidate, hid]

theorem call_setValue {ref : Ref} {session : HttpSession} (hderef : m.deref ref = some session)
    (key value : Text) :
    (call m (.setValue ref key value)).2 = m.store (session.setValue key value) ref := by
  rw [call, hderef]

/-- Reading a value changes nothing. -/
theorem call_value (ref : Ref) (key : Text) : (call m (.value ref key)).2 = m := by
  rw [call]
  split <;> rfl

end

/-- The reference of a call, if it has one, leads to a session. -/
def Alive (m : HttpSessionManager) : Call → Prop
  | .createSession _ _ _ => True
  | .sessionForId _ _ _ => True
  | .invalidate ref => (m.deref ref).isSome = true
  | .setValue ref _ _ => (m.deref ref).isSome = true
  | .value ref _ => (m.deref ref).isSome = true

instance (m : HttpSessionManager) : DecidablePred m.Alive
  | .createSession _ _ _ => inferInstanceAs (Decidable True)
  | .sessionForId _ _ _ => inferInstanceAs (Decidable True)
  | .invalidate ref => inferInstanceAs (Decidable ((m.deref ref).isSome = true))
  | .setValue ref _ _ => inferInstanceAs (Decidable ((m.deref ref).isSome = true))
  | .value ref _ => inferInstanceAs (Decidable ((m.deref ref).isSome = true))

end HttpSessionManager

namespace Call

/-- The readings of the clock in a call. -/
def readings : Call → List Int
  | .createSession _ _ now => [now]
  | .sessionForId _ now later => [now, later]
  | _ => []

/-- The id that a call has generated. -/
def created : Call → Option Text
  | .createSession uuid _ _ => some uuid
  | _ => none

end Call

end Acatl.Net

/-
Acatl.Net.HttpParser — `HttpParser::Impl`, which stands between `http_parser` and
the `HttpCallbacks`.

`http_parser` is not part of the sources: it raises events, and what a handler
reads of its fields (the method, the status code, the version, whether to keep
the connection alive) is part of the event. `parse` and the error codes
of `http_parser_execute` are left out.
-/
import Acatl.Lib.Machine
import Acatl.Text

namespace Acatl.Net

/-! ## §1 HttpCallbacks -/

/-- `HttpMethod`. -/
inductive HttpMethod where
  | get
  | post
  | put
  | delete
  | head
  | connect
  | options
  | trace
  deriving DecidableEq

/-- `HttpVersion`. -/
inductive HttpVersion where
  | http10
  | http11
  deriving DecidableEq

/-- `HttpStatus`. -/
abbrev HttpStatus := UInt16

/-- A call of `HttpCallbacks`. -/
inductive HttpCallback where
  | onMessageBegin (method : HttpMethod)
  | onStatus (statusCode : HttpStatus) (statusText : Text)
  | onUrl (url : Text)
  | onHeaderField (field : Text)
  | onHeaderValue (value : Text)
  | onHeaderComplete (version : HttpVersion)
  | onBody (data : Text)
  | onMessageComplete (closeConnection : Bool)
  deriving DecidableEq

/-- An implementation of `HttpCallbacks`: what a call returns, after the calls
before it. -/
abbrev HttpCallbacks := List HttpCallback → HttpCallback → Int

namespace HttpParser

/-! ## §2 Events -/

/-- `enum http_method`, of which the library knows five. -/
inductive RawMethod where
  | httpDelete
  | httpGet
  | httpHead
  | httpPost
  | httpPut
  | other (code : Nat)
  deriving DecidableEq

/-- What `http_parser` raises. -/
inductive Event where
  | messageBegin (method : RawMethod)
  | status (statusCode : UInt16) (text : Text)
  | url (text : Text)
  | headerField (text : Text)
  | headerValue (text : Text)
  | headersComplete (httpMajor httpMinor : UInt16)
  | body (text : Text)
  | messageComplete (shouldKeepAlive : Bool)
  deriving DecidableEq

/-! ## §3 Impl -/

inductive State where
  | start
  | status
  | url
  | headerField
  | headerValue
  | body
  | complete
  deriving DecidableEq

/-- `HttpParser::Impl`, with the calls of its callbacks so far. -/
structure Impl where
  state : State
  statusCode : HttpStatus
  data : Text
  calls : List HttpCallback
  deriving DecidableEq

namespace Impl

/-- The constructor. It leaves `_statusCode` as it is. -/
def construct (statusCode : HttpStatus) : Impl where
  state := .start
  statusCode := statusCode
  data := []
  calls := []

/-- `reset`. -/
def reset (obj : Impl) : Impl := { obj with state := .start, data := [] }

/-- A call of one of the callbacks. -/
def call (callbacks : HttpCallbacks) (obj : Impl) (c : HttpCallback) : Int × Impl :=
  (callbacks obj.calls c, { obj with calls := obj.calls ++ [c] })

/-- The `switch` of `onMessageBegin`. -/
def methodOf : RawMethod → Option HttpMethod
  | .httpGet => some .get
  | .httpPost => some .post
  | .httpPut => some .put
  | .httpDelete => some .delete
  | .httpHead => some .head
  | .other _ => none

/-- `onMessageBegin`. -/
def onMessageBegin (callbacks : HttpCallbacks) (obj : Impl) (method : RawMethod) : Int × Impl :=
  match methodOf method with
  | some method => obj.call callbacks (.onMessageBegin method)
  | none => (1, obj)

/-- `callCallback`. -/
def callCallback (callbacks : HttpCallbacks) (obj : Impl) (data : Text) : Int × Impl :=
  match obj.state with
  | .url => obj.call callbacks (.onUrl data)
  | .headerField => obj.call callbacks (.onHeaderField data)
  | .headerValue => obj.call callbacks (.onHeaderValue data)
  | .body | .complete | .status => obj.call callbacks (.onStatus obj.statusCode data)
  | .start => (1, obj)

/-- `onStatus`. -/
def onStatus (obj : Impl) (statusCode : UInt16) (text : Text) : Int × Impl :=
  (0, { obj with state := .status, statusCode := statusCode, data := obj.data ++ text })

/-- `onUrl`. -/
def onUrl (obj : Impl) (text : Text) : Int × Impl :=
  (0, { obj with state := .url, data := obj.data ++ text })

/-- `onHeaderField`. What the callback returns is not handed on. -/
def onHeaderField (callbacks : HttpCallbacks) (obj : Impl) (text : Text) : Int × Impl :=
  let (_, obj) :=
    if obj.state ≠ .headerField then
      let (ret, obj) := obj.callCallback callbacks obj.data
      (ret, { obj with data := [], state := .headerField })
    else (0, obj)
  (0, { obj with data := obj.data ++ text })

/-- `onHeaderValue`. -/
def onHeaderValue (callbacks : HttpCallbacks) (obj : Impl) (text : Text) : Int × Impl :=
  let (ret, obj) :=
    if obj.state ≠ .headerValue then
      let (ret, obj) := obj.callCallback callbacks obj.data
      (ret, { obj with data := [], state := .headerValue })
    else (0, obj)
  (ret, { obj with data := obj.data ++ text })

/-- The version that `onHeaderComplete` hands on. -/
def versionOf (httpMajor httpMinor : UInt16) : Option HttpVersion :=
  if httpMajor = 1 ∧ httpMinor = 0 then some .http10
  else if httpMajor = 1 ∧ httpMinor = 1 then some .http11
  else none

/-- `onHeaderComplete`. -/
def onHeaderComplete (callbacks : HttpCallbacks) (obj : Impl) (httpMajor httpMinor : UInt16) :
    Int × Impl :=
  let (ret, obj) := obj.callCallback callbacks obj.data
  let obj := { obj with data := [] }
  match versionOf httpMajor httpMinor with
  | some version =>
    let (_, obj) := obj.call callbacks (.onHeaderComplete version)
    (ret, { obj with state := .body })
  | none => (1, obj)

/-- `onBody`. -/
def onBody (callbacks : HttpCallbacks) (obj : Impl) (text : Text) : Int × Impl :=
  obj.call callbacks (.onBody text)

/-- `onMessageComplete`. -/
def onMessageComplete (callbacks : HttpCallbacks) (obj : Impl) (shouldKeepAlive : Bool) :
    Int × Impl :=
  let (ret, obj) := obj.call callbacks (.onMessageComplete (!shouldKeepAlive))
  (ret, { obj with state := .complete })

/-- The handlers, as `_settings` has them: what is returned to `http_parser`. -/
def handle (callbacks : HttpCallbacks) : Lib.Machine Impl Event Int
  | obj, .messageBegin method => obj.onMessageBegin callbacks method
  | obj, .status statusCode text => obj.onStatus statusCode text
  | obj, .url text => obj.onUrl text
  | obj, .headerField text => obj.onHeaderField callbacks text
  | obj, .headerValue text => obj.onHeaderValue callbacks text
  | obj, .headersComplete httpMajor httpMinor => obj.onHeaderComplete callbacks httpMajor httpMinor
  | obj, .body text => obj.onBody callbacks text
  | obj, .messageComplete shouldKeepAlive => obj.onMessageComplete callbacks shouldKeepAlive

/-! ## §4 What a handler does to the state -/

/-- The callback that the buffer is for. -/
def pending (obj : Impl) : Option HttpCallback :=
  match obj.state with
  | .url => some (.onUrl obj.data)
  | .headerField => some (.onHeaderField obj.data)
  | .headerValue => some (.onHeaderValue obj.data)
  | .body | .complete | .status => some (.onStatus obj.statusCode obj.data)
  | .start => none

/-- The calls, with the one that the buffer is for. -/
def reported (obj : Impl) : List HttpCallback := obj.calls ++ obj.pending.toList

variable (callbacks : HttpCallbacks) (obj : Impl)

theorem callCallback_snd :
    (obj.callCallback callbacks obj.data).2 = { obj with calls := obj.reported } := by
  obtain ⟨state, statusCode, waiting, calls⟩ := obj
  cases state <;> simp [callCallback, reported, pending, call]

theorem handle_messageBegin (method : RawMethod) :
    (handle callbacks obj (.messageBegin method)).2 =
      { obj with calls := obj.calls ++ ((methodOf method).map .onMessageBegin).toList } := by
  simp only [handle, onMessageBegin]
  cases methodOf method with
  | none => simp
  | some method => rfl

theorem handle_headerField (hstate : obj.state ≠ .headerField) (text : Text) :
    (handle callbacks obj (.headerField text)).2 =
      { obj with state := .headerField, data := text, calls := obj.reported } := by
  simp only [handle, onHeaderField, if_pos hstate, callCallback_snd, List.nil_append]

theorem handle_headerValue (hstate : obj.state ≠ .headerValue) (text : Text) :
    (handle callbacks obj (.headerValue text)).2 =
      { obj with state := .headerValue, data := text, calls := obj.reported } := by
  simp only [handle, onHeaderValue, if_pos hstate, callCallback_snd, List.nil_append]

theorem handle_headersComplete (httpMajor httpMinor : UInt16) :
    (handle callbacks obj (.headersComplete httpMajor httpMinor)).2 =
      { obj with
        state := if (versionOf httpMajor httpMinor).isSome then .body else obj.state
        data := []
        calls := obj.reported ++
          ((versionOf httpMajor httpMinor).map .onHeaderComplete).toList } := by
  simp only [handle, onHeaderComplete, callCallback_snd]
  cases versionOf httpMajor httpMinor with
  | none => simp
  | some version => rfl

/-- No handler takes a call back. -/
theorem calls_prefix_handle (e : Event) : obj.calls <+: (handle callbacks obj e).2.calls := by
  cases e with
  | messageBegin method =>
    rw [handle_messageBegin]
    exact List.prefix_append _ _
  | status statusCode text | url text => exact List.prefix_refl _
  | headerField text =>
    by_cases hstate : obj.state = .headerField
    · simp [handle, onHeaderField, hstate]
    · rw [handle_headerField callbacks obj hstate]
      exact List.prefix_append _ _
  | headerValue text =>
    by_cases hstate : obj.state = .headerValue
    · simp [handle, onHeaderValue, hstate]
    · rw [handle_headerValue callbacks obj hstate]
      exact List.prefix_append _ _
  | headersComplete httpMajor httpMinor =>
    rw [handle_headersComplete, reported, List.append_assoc]
    exact List.prefix_append _ _
  | body text | messageComplete shouldKeepAlive => exact List.prefix_append _ _

end Impl

end HttpParser

end Acatl.Net

/-
Acatl.Net.HeaderCallbacks — which callbacks a message makes, over every way of
splitting its texts.

What `http_parser` raises for a message is taken as given (`Message.events`). The
state after a message does not depend on how its texts are split
(`run_whole`). The callbacks are those of the message exactly when it has no
trailers (`reports_iff`): the state after the headers is the one of a status text
too, and nothing is called for the last trailer.
-/
import Acatl.Net.HttpParser

namespace Acatl.Net.HttpParser

/-! ## §1 Messages -/

/-- A text in one or more pieces. -/
structure Fragments where
  first : Text
  more : List Text
  deriving DecidableEq

namespace Fragments

def pieces (f : Fragments) : List Text := f.first :: f.more

def text (f : Fragments) : Text := f.pieces.flatten

/-- The text in one piece. -/
def whole (f : Fragments) : Fragments := ⟨f.text, []⟩

end Fragments

structure Header where
  field : Fragments
  value : Fragments
  deriving DecidableEq

namespace Header

def events (h : Header) : List Event :=
  h.field.pieces.map .headerField ++ h.value.pieces.map .headerValue

/-- What is to be called for a header. -/
def callbacks (h : Header) : List HttpCallback :=
  [.onHeaderField h.field.text, .onHeaderValue h.value.text]

def whole (h : Header) : Header := ⟨h.field.whole, h.value.whole⟩

end Header

inductive StartLine where
  | request (url : Fragments)
  | response (statusCode : UInt16) (status : Fragments)
  deriving DecidableEq

namespace StartLine

def events : StartLine → List Event
  | .request url => url.pieces.map .url
  | .response statusCode status => status.pieces.map (.status statusCode)

def callback : StartLine → HttpCallback
  | .request url => .onUrl url.text
  | .response statusCode status => .onStatus statusCode status.text

def whole : StartLine → StartLine
  | .request url => .request url.whole
  | .response statusCode status => .response statusCode status.whole

end StartLine

structure Message where
  method : RawMethod
  startLine : StartLine
  headers : List Header
  httpMajor : UInt16
  httpMinor : UInt16
  body : List Text
  trailers : List Header
  shouldKeepAlive : Bool
  deriving DecidableEq

namespace Message

/-- The events before the trailers. -/
def leading (m : Message) : List Event :=
  .messageBegin m.method :: m.startLine.events ++ m.headers.flatMap Header.events ++
    .headersComplete m.httpMajor m.httpMinor :: m.body.map .body

/-- The events of a message. -/
def events (m : Message) : List Event :=
  m.leading ++ m.trailers.flatMap Header.events ++ [.messageComplete m.shouldKeepAlive]

/-- What is to be called up to `onHeaderComplete`, which is called for the
versions that the library knows. -/
def front (m : Message) : List HttpCallback :=
  m.startLine.callback :: m.headers.flatMap Header.callbacks ++
    ((Impl.versionOf m.httpMajor m.httpMinor).map .onHeaderComplete).toList

/-- What is to be called, apart from `onMessageBegin` and `onBody`. -/
def callbacks (m : Message) : List HttpCallback :=
  m.front ++ m.trailers.flatMap Header.callbacks ++ [.onMessageComplete (!m.shouldKeepAlive)]

/-- The message with every text in one piece. -/
def whole (m : Message) : Message :=
  { m with
    startLine := m.startLine.whole
    headers := m.headers.map Header.whole
    trailers := m.trailers.map Header.whole }

end Message

/-- What happens to a parser: a message is raised, or `reset` is called between
two messages. -/
inductive Turn where
  | message (m : Message)
  | reset
  deriving DecidableEq

namespace Turn

def apply (callbacks : HttpCallbacks) (obj : Impl) : Turn → Impl
  | .message m => (Impl.handle callbacks).after obj m.events
  | .reset => obj.reset

def callbacks : Turn → List HttpCallback
  | .message m => m.callbacks
  | .reset => []

def whole : Turn → Turn
  | .message m => .message m.whole
  | .reset => .reset

end Turn

/-- The state after some turns. -/
def run (callbacks : HttpCallbacks) (obj : Impl) (turns : List Turn) : Impl :=
  turns.foldl (Turn.apply callbacks) obj

/-- The calls other than `onMessageBegin` and `onBody`. -/
def named : HttpCallback → Bool
  | .onMessageBegin _ | .onBody _ => false
  | _ => true

/-- The calls of the run are those of the messages, in their order. -/
def Reports (callbacks : HttpCallbacks) (statusCode : HttpStatus) (turns : List Turn) : Prop :=
  (run callbacks (Impl.construct statusCode) turns).calls.filter named =
    turns.flatMap Turn.callbacks

instance (callbacks : HttpCallbacks) (statusCode : HttpStatus) (turns : List Turn) :
    Decidable (Reports callbacks statusCode turns) :=
  inferInstanceAs (Decidable (_ = _))

/-! ## §2 Texts in pieces -/

variable (callbacks : HttpCallbacks)

/-- A kind of event that only adds to the buffer once it has been raised. -/
def Accumulates (f : Text → Event) : Prop :=
  ∀ obj front back, (Impl.handle callbacks (Impl.handle callbacks obj (f front)).2 (f back)).2 =
    (Impl.handle callbacks obj (f (front ++ back))).2

theorem accumulates_status (statusCode : UInt16) : Accumulates callbacks (.status statusCode) := by
  intro obj front back
  simp [Impl.handle, Impl.onStatus]

theorem accumulates_url : Accumulates callbacks .url := by
  intro obj front back
  simp [Impl.handle, Impl.onUrl]

theorem accumulates_headerField : Accumulates callbacks .headerField := by
  intro obj front back
  by_cases hstate : obj.state = .headerField
  · simp [Impl.handle, Impl.onHeaderField, hstate]
  · rw [Impl.handle_headerField callbacks obj hstate, Impl.handle_headerField callbacks obj hstate]
    simp [Impl.handle, Impl.onHeaderField]

theorem accumulates_headerValue : Accumulates callbacks .headerValue := by
  intro obj front back
  by_cases hstate : obj.state = .headerValue
  · simp [Impl.handle, Impl.onHeaderValue, hstate]
  · rw [Impl.handle_headerValue callbacks obj hstate, Impl.handle_headerValue callbacks obj hstate]
    simp [Impl.handle, Impl.onHeaderValue]

variable {callbacks}

theorem Accumulates.after_pieces {f : Text → Event} (hf : Accumulates callbacks f) (obj : Impl)
    (pieces : Fragments) :
    (Impl.handle callbacks).after obj (pieces.pieces.map f) =
      (Impl.handle callbacks obj (f pieces.text)).2 :=
  Lib.Machine.after_fragments hf obj pieces.first pieces.more

theorem Accumulates.after_whole {f : Text → Event} (hf : Accumulates callbacks f) (obj : Impl)
    (pieces : Fragments) :
    (Impl.handle callbacks).after obj (pieces.whole.pieces.map f) =
      (Impl.handle callbacks).after obj (pieces.pieces.map f) := by
  rw [hf.after_pieces, hf.after_pieces]
  simp [Fragments.whole, Fragments.text, Fragments.pieces]

/-! ## §3 Every split leads to the same state -/

theorem StartLine.after_whole (obj : Impl) (line : StartLine) :
    (Impl.handle callbacks).after obj line.whole.events =
      (Impl.handle callbacks).after obj line.events := by
  cases line with
  | request url => exact (accumulates_url callbacks).after_whole obj url
  | response statusCode status =>
    exact (accumulates_status callbacks statusCode).after_whole obj status

theorem Header.after_whole (obj : Impl) (h : Header) :
    (Impl.handle callbacks).after obj h.whole.events =
      (Impl.handle callbacks).after obj h.events := by
  rw [Header.events, Header.events, Lib.Machine.after_append, Lib.Machine.after_append]
  rw [Header.whole, (accumulates_headerField callbacks).after_whole,
    (accumulates_headerValue callbacks).after_whole]

theorem after_whole_headers (obj : Impl) (headers : List Header) :
    (Impl.handle callbacks).after obj ((headers.map Header.whole).flatMap Header.events) =
      (Impl.handle callbacks).after obj (headers.flatMap Header.events) := by
  induction headers generalizing obj with
  | nil => simp
  | cons h headers ih =>
    simp only [List.map_cons, List.flatMap_cons, Lib.Machine.after_append, Header.after_whole, ih]

theorem Message.after_whole (obj : Impl) (m : Message) :
    (Impl.handle callbacks).after obj m.whole.events =
      (Impl.handle callbacks).after obj m.events := by
  simp only [Message.events, Message.leading, Message.whole, Lib.Machine.after_append,
    Lib.Machine.after_cons, StartLine.after_whole, after_whole_headers]

/-- **The state, and so the calls, do not depend on how the texts are split**,
whether or not there are trailers. -/
theorem run_whole (obj : Impl) (turns : List Turn) :
    run callbacks obj (turns.map Turn.whole) = run callbacks obj turns := by
  have hturn (obj : Impl) (turn : Turn) :
      turn.whole.apply callbacks obj = turn.apply callbacks obj := by
    cases turn with
    | message m => exact m.after_whole obj
    | reset => rfl
  simp only [run, List.foldl_map, hturn]

/-! ## §4 A message -/

variable (callbacks)

theorem calls_prefix_after (obj : Impl) (events : List Event) :
    obj.calls <+: ((Impl.handle callbacks).after obj events).calls :=
  Lib.Machine.inv_after (fun obj' => obj.calls <+: obj'.calls)
    (fun obj' e h => h.trans (Impl.calls_prefix_handle callbacks obj' e)) (List.prefix_refl _)
    events

theorem calls_prefix_run (obj : Impl) (turns : List Turn) :
    obj.calls <+: (run callbacks obj turns).calls := by
  induction turns generalizing obj with
  | nil => exact List.prefix_refl _
  | cons turn turns ih =>
    refine List.IsPrefix.trans ?_ (ih (turn.apply callbacks obj))
    cases turn with
    | message m => exact calls_prefix_after callbacks obj m.events
    | reset => exact List.prefix_refl _

/-- A state in which the next header field ends what came before it. -/
structure Settled (obj : Impl) : Prop where
  not_headerField : obj.state ≠ .headerField
  not_start : obj.state ≠ .start

/-- The buffer waits for the text of the start line. -/
theorem after_startLine (obj : Impl) (hdata : obj.data = []) (line : StartLine) :
    let obj' := (Impl.handle callbacks).after obj line.events
    Settled obj' ∧ obj'.reported = obj.calls ++ [line.callback] := by
  cases line with
  | request url =>
    rw [StartLine.events, (accumulates_url callbacks).after_pieces]
    refine ⟨⟨by simp [Impl.handle, Impl.onUrl], by simp [Impl.handle, Impl.onUrl]⟩, ?_⟩
    simp [Impl.handle, Impl.onUrl, Impl.reported, Impl.pending, hdata, StartLine.callback]
  | response statusCode status =>
    rw [StartLine.events, (accumulates_status callbacks statusCode).after_pieces]
    refine ⟨⟨by simp [Impl.handle, Impl.onStatus], by simp [Impl.handle, Impl.onStatus]⟩, ?_⟩
    simp [Impl.handle, Impl.onStatus, Impl.reported, Impl.pending, hdata, StartLine.callback]

variable {obj : Impl}

/-- The first piece of a field lets go of what the buffer is for, and the value
waits in it. -/
theorem Settled.after_header (hobj : Settled obj) (h : Header) :
    (Impl.handle callbacks).after obj h.events =
      { obj with
        state := .headerValue
        data := h.value.text
        calls := obj.reported ++ [.onHeaderField h.field.text] } := by
  rw [Header.events, Lib.Machine.after_append, (accumulates_headerField callbacks).after_pieces,
    (accumulates_headerValue callbacks).after_pieces,
    Impl.handle_headerField _ _ hobj.not_headerField, Impl.handle_headerValue _ _ (by simp)]
  rfl

theorem Settled.after_headers (hobj : Settled obj) (headers : List Header) :
    let obj' := (Impl.handle callbacks).after obj (headers.flatMap Header.events)
    Settled obj' ∧ obj'.reported = obj.reported ++ headers.flatMap Header.callbacks := by
  induction headers generalizing obj with
  | nil => simp [hobj]
  | cons h headers ih =>
    have hnext : Settled ((Impl.handle callbacks).after obj h.events) := by
      rw [hobj.after_header]
      exact ⟨by simp, by simp⟩
    obtain ⟨hsettled, hreported⟩ := ih hnext
    rw [List.flatMap_cons, Lib.Machine.after_append]
    refine ⟨hsettled, ?_⟩
    rw [hreported, hobj.after_header]
    simp [Impl.reported, Impl.pending, Header.callbacks]

/-- What is called in such a state is not for a field. -/
theorem Settled.pending_eq (hobj : Settled obj) :
    ∃ c, obj.pending = some c ∧ named c = true ∧ ∀ field, c ≠ .onHeaderField field := by
  obtain ⟨state, statusCode, data, calls⟩ := obj
  cases state with
  | start => exact absurd rfl hobj.not_start
  | headerField => exact absurd rfl hobj.not_headerField
  | url => exact ⟨.onUrl data, rfl, rfl, by simp⟩
  | headerValue => exact ⟨.onHeaderValue data, rfl, rfl, by simp⟩
  | status | body | complete => exact ⟨.onStatus statusCode data, rfl, rfl, by simp⟩

theorem after_body (obj : Impl) (body : List Text) :
    (Impl.handle callbacks).after obj (body.map .body) =
      { obj with calls := obj.calls ++ body.map .onBody } := by
  induction body generalizing obj with
  | nil => simp
  | cons text body ih =>
    rw [List.map_cons, Lib.Machine.after_cons, ih]
    simp [Impl.handle, Impl.onBody, Impl.call]

theorem filter_named_headers (headers : List Header) :
    (headers.flatMap Header.callbacks).filter named = headers.flatMap Header.callbacks := by
  induction headers with
  | nil => rfl
  | cons h headers ih =>
    rw [List.flatMap_cons, List.filter_append, ih]
    rfl

theorem Message.filter_named_front (m : Message) : m.front.filter named = m.front := by
  rw [Message.front, List.filter_append, List.filter_cons, filter_named_headers]
  cases m.startLine <;> cases Impl.versionOf m.httpMajor m.httpMinor <;> rfl

/-- The calls that count. -/
def told (obj : Impl) : List HttpCallback := obj.calls.filter named

/-- The events before the trailers, from an empty buffer. -/
theorem after_front (hdata : obj.data = []) (m : Message) :
    let obj' := (Impl.handle callbacks).after obj m.leading
    Settled obj' ∧ obj'.data = [] ∧ told obj' = told obj ++ m.front := by
  rw [Message.leading, List.cons_append, List.cons_append, Lib.Machine.after_cons,
    Impl.handle_messageBegin]
  generalize hbegin : obj.calls ++ ((Impl.methodOf m.method).map .onMessageBegin).toList = calls
  obtain ⟨hline, hlineCalls⟩ :=
    after_startLine callbacks { obj with calls := calls } hdata m.startLine
  obtain ⟨hheaders, hheadersCalls⟩ := hline.after_headers callbacks m.headers
  rw [Lib.Machine.after_append, Lib.Machine.after_append, Lib.Machine.after_cons, after_body,
    Impl.handle_headersComplete, hheadersCalls, hlineCalls]
  refine ⟨⟨?_, ?_⟩, rfl, ?_⟩
  · dsimp only
    split
    · decide
    · exact hheaders.not_headerField
  · dsimp only
    split
    · decide
    · exact hheaders.not_start
  · have hmethod : calls.filter named = told obj := by
      rw [← hbegin, told, List.filter_append]
      cases Impl.methodOf m.method <;> simp [named]
    have hbody : (m.body.map HttpCallback.onBody).filter named = [] := by
      simp [List.filter_eq_nil_iff, named]
    have hfront := m.filter_named_front
    simp only [told] at hmethod ⊢
    simp only [Message.front] at hfront ⊢
    rw [List.filter_append, hbody, List.append_nil, List.append_assoc, List.append_assoc,
      List.filter_append, hmethod]
    simpa using hfront

theorem told_messageComplete (obj : Impl) (shouldKeepAlive : Bool) :
    told (Impl.handle callbacks obj (.messageComplete shouldKeepAlive)).2 =
      told obj ++ [.onMessageComplete (!shouldKeepAlive)] := by
  simp [told, Impl.handle, Impl.onMessageComplete, Impl.call, named]

/-- A message without trailers. -/
theorem after_message (hdata : obj.data = []) (m : Message) (htrailers : m.trailers = []) :
    let obj' := (Impl.handle callbacks).after obj m.events
    obj'.data = [] ∧ told obj' = told obj ++ m.callbacks := by
  obtain ⟨-, hfrontData, hfront⟩ := after_front callbacks hdata m
  rw [Message.events, htrailers, List.flatMap_nil, List.append_nil, Lib.Machine.after_append,
    Lib.Machine.after_cons, Lib.Machine.after_nil]
  refine ⟨hfrontData, ?_⟩
  rw [told_messageComplete, hfront, Message.callbacks, htrailers]
  simp

/-- The first field of a trailer comes with a callback of its own, which is that of
no trailer. -/
theorem after_message_trailers (hdata : obj.data = []) (m : Message) (htrailers : m.trailers ≠ []) :
    ∃ c, told obj ++ m.front ++ [c] <+: told ((Impl.handle callbacks).after obj m.events) ∧
      ∀ field, c ≠ .onHeaderField field := by
  obtain ⟨hsettled, -, hfront⟩ := after_front callbacks hdata m
  obtain ⟨c, hpending, hnamed, hc⟩ := hsettled.pending_eq
  obtain ⟨h, hs, htrailers⟩ := List.exists_cons_of_ne_nil htrailers
  have hevents : m.events = m.leading ++ h.events ++
      (hs.flatMap Header.events ++ [.messageComplete m.shouldKeepAlive]) := by
    simp [Message.events, htrailers]
  have hfield : told obj ++ m.front ++ [c] <+:
      told ((Impl.handle callbacks).after obj (m.leading ++ h.events)) := by
    rw [Lib.Machine.after_append, hsettled.after_header, ← hfront]
    simp [told, Impl.reported, hpending, hnamed]
  rw [hevents, Lib.Machine.after_append]
  exact ⟨c, hfield.trans ((calls_prefix_after callbacks _ _).filter named), hc⟩

/-! ## §5 Runs of messages -/

theorem told_prefix_run (obj : Impl) (turns : List Turn) :
    told obj <+: told (run callbacks obj turns) :=
  (calls_prefix_run callbacks obj turns).filter named

/-- What a run calls, from an empty buffer. -/
theorem told_run_iff (hdata : obj.data = []) (turns : List Turn) :
    told (run callbacks obj turns) = told obj ++ turns.flatMap Turn.callbacks ↔
      ∀ m, .message m ∈ turns → m.trailers = [] := by
  induction turns generalizing obj with
  | nil => simp [run]
  | cons turn turns ih =>
    cases turn with
    | reset =>
      have hreset := @ih obj.reset rfl
      simpa [run, Turn.apply, Turn.callbacks, told, Impl.reset] using hreset
    | message m =>
      have hrun : run callbacks obj (.message m :: turns) =
          run callbacks ((Impl.handle callbacks).after obj m.events) turns := rfl
      rw [hrun, List.flatMap_cons, Turn.callbacks]
      by_cases htrailers : m.trailers = []
      · obtain ⟨hnext, htold⟩ := after_message callbacks hdata m htrailers
        rw [← List.append_assoc, ← htold, ih hnext]
        simp [htrailers]
      · refine ⟨fun heq => ?_, fun hall => absurd (hall m (by simp)) htrailers⟩
        obtain ⟨c, hprefix, hc⟩ := after_message_trailers callbacks hdata m htrailers
        obtain ⟨rest, hrest⟩ := hprefix.trans (told_prefix_run callbacks _ turns)
        obtain ⟨h, hs, hcons⟩ := List.exists_cons_of_ne_nil htrailers
        rw [← hrest, Message.callbacks, hcons, List.flatMap_cons, Header.callbacks] at heq
        simp only [List.append_assoc, List.append_cancel_left_eq, List.cons_append,
          List.nil_append, List.cons.injEq] at heq
        exact absurd heq.1 (hc _)

/-- **The callbacks are those of the messages**, each with the whole text and in
their order, exactly when no message has trailers. -/
theorem reports_iff (callbacks : HttpCallbacks) (statusCode : HttpStatus) (turns : List Turn) :
    Reports callbacks statusCode turns ↔ ∀ m, .message m ∈ turns → m.trailers = [] := by
  have hempty : (Impl.construct statusCode).data = [] := rfl
  have hiff := told_run_iff callbacks hempty turns
  simpa [Reports, told, Impl.construct] using hiff

/-- A chunked request with a trailer: a status is reported, and the trailer's value
is not. -/
theorem not_always_reports :
    ¬ ∀ (callbacks : HttpCallbacks) (statusCode : HttpStatus) (turns : List Turn),
      Reports callbacks statusCode turns := by
  intro h
  have hreports := h (fun _ _ => 0) 0 [.message {
    method := .httpPost
    startLine := .request ⟨[47], []⟩
    headers := [⟨⟨[84, 114, 97, 110, 115, 102, 101, 114],
        [[45, 69, 110, 99, 111, 100, 105, 110, 103]]⟩,
      ⟨[99, 104, 117, 110, 107, 101, 100], []⟩⟩]
    httpMajor := 1
    httpMinor := 1
    body := [[104, 105]]
    trailers := [⟨⟨[97], []⟩, ⟨[98], []⟩⟩]
    shouldKeepAlive := true }]
  exact absurd hreports (by decide)

end Acatl.Net.HttpParser

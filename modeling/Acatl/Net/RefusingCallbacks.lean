/-
Acatl.Net.RefusingCallbacks — what a callback that returns an error does.

A handler that only appends to the buffer calls nothing. One that lets go of the
buffer calls the callback that the buffer is for, and its result is that of the
handler in `onHeaderValue`, but not in `onHeaderField`; `onHeaderComplete` hands
on what came of the buffer, and not the result of the user's `onHeaderComplete`.
`Kept` says of an event that none of this happens to it (`stops_iff`).
-/
import Acatl.Net.HttpParser

namespace Acatl.Net.HttpParser

/-! ## §1 Refusals -/

/-- One of the calls, behind others, is answered with an error. -/
def refused (callbacks : HttpCallbacks) : List HttpCallback → List HttpCallback → Bool
  | _, [] => false
  | before, c :: cs => callbacks before c ≠ 0 || refused callbacks (before ++ [c]) cs

/-- The calls that a handler makes. -/
def made (callbacks : HttpCallbacks) (obj : Impl) (e : Event) : List HttpCallback :=
  (Impl.handle callbacks obj e).2.calls.drop obj.calls.length

/-- When one of its calls is answered with an error, the handler returns one to
`http_parser`. -/
def Stops (callbacks : HttpCallbacks) (obj : Impl) (e : Event) : Prop :=
  refused callbacks obj.calls (made callbacks obj e) = true →
    (Impl.handle callbacks obj e).1 ≠ 0

instance (callbacks : HttpCallbacks) (obj : Impl) (e : Event) :
    Decidable (Stops callbacks obj e) := inferInstanceAs (Decidable (_ → _))

/-- What an event must not meet: a header field lets go of a buffer whose callback
refuses, or the headers are complete, the callback of the buffer accepts and
`onHeaderComplete` refuses. -/
def Kept (callbacks : HttpCallbacks) (obj : Impl) : Event → Prop
  | .headerField _ =>
    obj.state ≠ .headerField → ∀ c ∈ obj.pending, callbacks obj.calls c = 0
  | .headersComplete httpMajor httpMinor =>
    ∀ version ∈ Impl.versionOf httpMajor httpMinor, ∀ c ∈ obj.pending,
      callbacks obj.calls c = 0 → callbacks obj.reported (.onHeaderComplete version) = 0
  | _ => True

variable {callbacks : HttpCallbacks} {obj : Impl} {e : Event}

theorem made_eq {cs : List HttpCallback}
    (h : (Impl.handle callbacks obj e).2.calls = obj.calls ++ cs) :
    made callbacks obj e = cs := by
  rw [made, h, List.drop_left]

theorem refused_single (before : List HttpCallback) (c : HttpCallback) :
    refused callbacks before [c] = true ↔ callbacks before c ≠ 0 := by
  simp [refused]

theorem refused_pending :
    refused callbacks obj.calls obj.pending.toList = true ↔
      ∃ c ∈ obj.pending, callbacks obj.calls c ≠ 0 := by
  cases obj.pending with
  | none => simp [refused]
  | some c => simp [refused]

/-- A handler that makes no call. -/
theorem stops_of_made_nil (h : (Impl.handle callbacks obj e).2.calls = obj.calls) :
    Stops callbacks obj e := by
  rw [Stops, made_eq (h.trans (List.append_nil _).symm)]
  simp [refused]

/-- A handler that returns what its only call returns. -/
theorem stops_of_made_single {c : HttpCallback}
    (h : (Impl.handle callbacks obj e).2.calls = obj.calls ++ [c])
    (hret : (Impl.handle callbacks obj e).1 = callbacks obj.calls c) : Stops callbacks obj e := by
  rw [Stops, made_eq h, refused_single, hret]
  exact id

/-! ## §2 The handlers -/

/-- What `callCallback` returns. -/
theorem callCallback_fst (callbacks : HttpCallbacks) (obj : Impl) :
    (obj.callCallback callbacks obj.data).1 = (obj.pending.map (callbacks obj.calls)).getD 1 := by
  obtain ⟨state, statusCode, data, calls⟩ := obj
  cases state <;> rfl

theorem stops_messageBegin (method : RawMethod) : Stops callbacks obj (.messageBegin method) := by
  cases hmethod : Impl.methodOf method with
  | none =>
    refine stops_of_made_nil ?_
    rw [Impl.handle_messageBegin, hmethod]
    simp
  | some m =>
    refine stops_of_made_single (?_ : _ = obj.calls ++ [.onMessageBegin m]) ?_
    · rw [Impl.handle_messageBegin, hmethod]
      rfl
    · simp only [Impl.handle, Impl.onMessageBegin, hmethod, Impl.call]

/-- A header field returns no error whatever comes of the buffer. -/
theorem stops_headerField (text : Text) :
    Stops callbacks obj (.headerField text) ↔ Kept callbacks obj (.headerField text) := by
  have hret : (Impl.handle callbacks obj (.headerField text)).1 = 0 := rfl
  by_cases hstate : obj.state = .headerField
  · have hstops : Stops callbacks obj (.headerField text) := stops_of_made_nil (by
      simp [Impl.handle, Impl.onHeaderField, hstate])
    exact ⟨fun _ hother => absurd hstate hother, fun _ => hstops⟩
  · have hmade : made callbacks obj (.headerField text) = obj.pending.toList :=
      made_eq (by rw [Impl.handle_headerField callbacks obj hstate]; rfl)
    rw [Stops, hmade, refused_pending, hret, Kept]
    refine ⟨fun h _ c hc => ?_, fun h hrefused => ?_⟩
    · by_contra hne
      exact h ⟨c, hc, hne⟩ rfl
    · obtain ⟨c, hc, hne⟩ := hrefused
      exact absurd (h hstate c hc) hne

theorem stops_headerValue (text : Text) : Stops callbacks obj (.headerValue text) := by
  by_cases hstate : obj.state = .headerValue
  · exact stops_of_made_nil (by simp [Impl.handle, Impl.onHeaderValue, hstate])
  · have hmade : made callbacks obj (.headerValue text) = obj.pending.toList :=
      made_eq (by rw [Impl.handle_headerValue callbacks obj hstate]; rfl)
    have hret : (Impl.handle callbacks obj (.headerValue text)).1 =
        (obj.pending.map (callbacks obj.calls)).getD 1 := by
      simp only [Impl.handle, Impl.onHeaderValue, if_pos hstate, callCallback_fst]
    rw [Stops, hmade, refused_pending, hret]
    rintro ⟨c, hc, hne⟩
    rwa [Option.mem_def.mp hc]

/-- The headers are complete: only what came of the buffer is handed on. -/
theorem stops_headersComplete (httpMajor httpMinor : UInt16) :
    Stops callbacks obj (.headersComplete httpMajor httpMinor) ↔
      Kept callbacks obj (.headersComplete httpMajor httpMinor) := by
  have hmade : made callbacks obj (.headersComplete httpMajor httpMinor) =
      obj.pending.toList ++ ((Impl.versionOf httpMajor httpMinor).map .onHeaderComplete).toList :=
    made_eq (by rw [Impl.handle_headersComplete, Impl.reported, List.append_assoc])
  rw [Stops, hmade, Kept]
  cases hversion : Impl.versionOf httpMajor httpMinor with
  | none =>
    have hret : (Impl.handle callbacks obj (.headersComplete httpMajor httpMinor)).1 = 1 := by
      simp only [Impl.handle, Impl.onHeaderComplete, hversion]
    rw [hret]
    simp
  | some version =>
    have hret : (Impl.handle callbacks obj (.headersComplete httpMajor httpMinor)).1 =
        (obj.pending.map (callbacks obj.calls)).getD 1 := by
      simp only [Impl.handle, Impl.onHeaderComplete, hversion, callCallback_fst, Impl.call]
    rw [hret, Impl.reported]
    cases obj.pending with
    | none => simp
    | some c =>
      -- what comes of the buffer decides whether the other call counts
      by_cases hc : callbacks obj.calls c = 0
      · simp [refused, hc]
      · simp [refused, hc]

/-- **One event: the handler stops when it is refused, unless a refusal comes
where its result is dropped.** -/
theorem stops_iff_kept : Stops callbacks obj e ↔ Kept callbacks obj e := by
  cases e with
  | messageBegin method => exact iff_of_true (stops_messageBegin method) trivial
  | status statusCode text => exact iff_of_true (stops_of_made_nil rfl) trivial
  | url text => exact iff_of_true (stops_of_made_nil rfl) trivial
  | headerField text => exact stops_headerField text
  | headerValue text => exact iff_of_true (stops_headerValue text) trivial
  | headersComplete httpMajor httpMinor => exact stops_headersComplete httpMajor httpMinor
  | body text => exact iff_of_true (stops_of_made_single rfl rfl) trivial
  | messageComplete shouldKeepAlive => exact iff_of_true (stops_of_made_single rfl rfl) trivial

/-! ## §3 Runs -/

/-- **In a run every refusal stops the parser just when no event of it meets a
refusal whose result is dropped.** -/
theorem refusals_stop_iff (callbacks : HttpCallbacks) (obj : Impl) (events : List Event) :
    (Impl.handle callbacks).Along (Stops callbacks) obj events ↔
      (Impl.handle callbacks).Along (Kept callbacks) obj events :=
  Lib.Machine.along_congr fun _ _ => stops_iff_kept

/-- `onUrl` refuses, and the first header field lets go of the url. -/
theorem not_always_stops :
    ¬ ∀ (callbacks : HttpCallbacks) (statusCode : HttpStatus) (events : List Event),
      (Impl.handle callbacks).Along (Stops callbacks) (Impl.construct statusCode) events := by
  intro h
  have hrun := h (fun _ c => if c = .onUrl [47] then 1 else 0) 0
    [.messageBegin .httpGet, .url [47], .headerField [72]]
  revert hrun
  decide

end Acatl.Net.HttpParser

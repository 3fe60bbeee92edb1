/-
Acatl.Mqtt.ParserResults — results and error codes over whole runs of
`MQTTParser` and of the body parsers.

  `results_agree_iff`   in which runs every result fits its error code.
  `errors_final_iff`    after which failures every later call fails.

Both rest on `MQTTParser.Sound`: the body parser in use is in one of the
situations of `Acatl.Mqtt.BodyResults`.
-/
import Acatl.Lib.Machine
import Acatl.Mqtt.BodyResults

namespace Acatl.Mqtt

open Acatl.Lib

/-! ## §1 The parsers as machines -/

/-- What a call answers, and the parser it leaves. -/
def ParseResult.answer {P : Type} (r : ParseResult P) : (Tribool × ErrorCode) × P :=
  ((r.ret, r.ec), r.parser)

/-- The error code is set exactly when the call returns false. -/
def AnswerAgrees (a : Tribool × ErrorCode) : Prop := a.1 = .det false ↔ a.2 ≠ none

instance (a : Tribool × ErrorCode) : Decidable (AnswerAgrees a) :=
  inferInstanceAs (Decidable (_ ↔ _))

/-- `MQTTParser`, with the error code cleared before each call. -/
def MQTTParser.machine (sort : TopicFilters → TopicFilters) :
    Machine MQTTParser Call (Tribool × ErrorCode) :=
  fun p call => (p.parse sort call none).answer

/-- `ConnectParser`, with the error code cleared before each call. -/
def ConnectParser.machine : Machine ConnectParser Call (Tribool × ErrorCode) :=
  fun p call => (ConnectParser.parse call.uuid p call.byte none).answer

/-- `PublishParser`, with the error code cleared before each call. -/
def PublishParser.machine : Machine PublishParser Call (Tribool × ErrorCode) :=
  fun p call => (PublishParser.parse p call.byte none).answer

/-- `SubscribeParser`, with the error code cleared before each call. -/
def SubscribeParser.machine (sort : TopicFilters → TopicFilters) :
    Machine SubscribeParser Call (Tribool × ErrorCode) :=
  fun p call => (SubscribeParser.parse sort p call.byte none).answer

/-- `SubAckParser`, with the error code cleared before each call. -/
def SubAckParser.machine : Machine SubAckParser Call (Tribool × ErrorCode) :=
  fun p call => (SubAckParser.parse p call.byte none).answer

theorem ConnectAckParser.parse_agrees (p : ConnectAckParser) (byte : UInt8) :
    (p.parse byte none).Agrees := by
  unfold ParseResult.Agrees ConnectAckParser.parse
  cases p.status with
  | connectAcknowledgeFlag => dsimp only; split <;> simp
  | connectReturnCode => dsimp only; split <;> simp
  | ready => simp

theorem ConnectAckParser.ready_of_false {p : ConnectAckParser} {byte : UInt8} {ec : ErrorCode}
    (h : (p.parse byte ec).ret = .det false) : (p.parse byte ec).parser.status = .ready := by
  unfold ConnectAckParser.parse at h ⊢
  cases hs : p.status with
  | connectAcknowledgeFlag =>
    by_cases hbyte : byte &&& 0xFE ≠ 0 <;> simp [hs, hbyte] at h ⊢
  | connectReturnCode =>
    by_cases hbyte : byte > 5 <;> simp [hs, hbyte] at h ⊢
  | ready => simp [hs]

theorem FixedHeaderParser.ready_of_true {p : FixedHeaderParser} {byte : UInt8} {ec : ErrorCode}
    (h : (p.parse byte ec).ret = .det true) : (p.parse byte ec).parser.status = .ready := by
  unfold FixedHeaderParser.parse at h ⊢
  cases hs : p.status with
  | start =>
    simp only [hs] at h
    split at h <;> simp at h
  | readLength =>
    obtain ⟨value, decoder, ⟨-, hd⟩ | ⟨-, hd⟩ | ⟨-, hd⟩⟩ := p.decoder.decode_cases byte ec <;>
      simp [hs, hd] at h ⊢
  | ready => simp [hs]

/-- The two ways the fixed header can fail: it is not valid and forgotten, or
its length has a fifth byte and it is kept. -/
theorem FixedHeaderParser.cases_of_false {p : FixedHeaderParser} {byte : UInt8} {ec : ErrorCode}
    (h : (p.parse byte ec).ret = .det false) :
    ((p.parse byte ec).parser.status = .ready ∧
      (p.parse byte ec).parser.header.controlPacketType = .none) ∨
    (p.status = .readLength ∧ p.decoder.multiplier > 128 * 128 * 128 ∧
      (p.parse byte ec).parser.status = .ready ∧
      (p.parse byte ec).parser.header.controlPacketType = p.header.controlPacketType) := by
  unfold FixedHeaderParser.parse at h ⊢
  cases hs : p.status with
  | start =>
    simp only [hs] at h ⊢
    split at h
    · simp at h
    · rename_i hvalid
      rw [if_neg hvalid]
      exact .inl ⟨rfl, rfl⟩
  | readLength =>
    obtain ⟨value, decoder, ⟨hm, hd⟩ | ⟨hm, hd⟩ | ⟨hm, hd⟩⟩ := p.decoder.decode_cases byte ec
    · exact .inr ⟨rfl, hm, by simp [hd]⟩
    · simp [hs, hd] at h
    · simp [hs, hd] at h
  | ready => simp [hs] at h

/-! ## §2 MQTTParser -/

namespace MQTTParser

/-- The body parser in use is in one of its situations. -/
structure Sound (p : MQTTParser) : Prop where
  connect : p.status = .connect → ConnectParser.Sound p.connectParser
  publish : p.status = .publish → p.publishParser.Sound PublishMembers.IsReady
  subscribe : p.status = .subscribe → p.subscribeParser.Sound SubscribeMembers.IsReady
  subAck : p.status = .subAck → p.subAckParser.Sound SubAckMembers.IsReady

/-- No body parser is in use. -/
theorem Sound.of_status {p : MQTTParser}
    (h : p.status = .start ∨ p.status = .connAck ∨ p.status = .ready) : p.Sound := by
  rcases h with h | h | h <;> constructor <;> simp [h]

theorem Sound.of_connect {p : MQTTParser} (h : p.status = .connect)
    (hp : ConnectParser.Sound p.connectParser) : p.Sound := by
  constructor <;> intro h' <;> simp [h] at h'
  exact hp

theorem Sound.of_publish {p : MQTTParser} (h : p.status = .publish)
    (hp : p.publishParser.Sound PublishMembers.IsReady) : p.Sound := by
  constructor <;> intro h' <;> simp [h] at h'
  exact hp

theorem Sound.of_subscribe {p : MQTTParser} (h : p.status = .subscribe)
    (hp : p.subscribeParser.Sound SubscribeMembers.IsReady) : p.Sound := by
  constructor <;> intro h' <;> simp [h] at h'
  exact hp

theorem Sound.of_subAck {p : MQTTParser} (h : p.status = .subAck)
    (hp : p.subAckParser.Sound SubAckMembers.IsReady) : p.Sound := by
  constructor <;> intro h' <;> simp [h] at h'
  exact hp

theorem sound_new : new.Sound := .of_status (.inl rfl)
theorem sound_reset (p : MQTTParser) : p.reset.Sound := .of_status (.inl rfl)

theorem Sound.finish {P : Type} {p : MQTTParser} {r : ParseResult P} {body : PacketBody}
    (h : p.Sound) : (p.finish r body).parser.Sound := by
  by_cases hr : r.ret = .det true
  · rw [finish_done hr]
    exact .of_status (.inr (.inr rfl))
  · rwa [finish_keeps hr]

theorem finish_agrees {P : Type} {p : MQTTParser} {r : ParseResult P} {body : PacketBody} :
    (p.finish r body).Agrees ↔ r.Agrees := by
  simp [ParseResult.Agrees]

theorem dispatch_agrees (p : MQTTParser) : (p.dispatch none).Agrees := by
  by_cases h : Handled p.fixedHeaderParser.header.controlPacketType
  · simp [ParseResult.Agrees, dispatch_handled h none]
  · obtain ⟨e, he⟩ := dispatch_unhandled h none
    simp [ParseResult.Agrees, he]

/-- The body parser a header selects starts in the situation `working`. -/
theorem sound_dispatch {p : MQTTParser} (hstart : p.status = .start) (ec : ErrorCode) :
    (p.dispatch ec).parser.Sound := by
  by_cases h : Handled p.fixedHeaderParser.header.controlPacketType
  · cases ht : p.fixedHeaderParser.header.controlPacketType with
    | connect =>
      rw [dispatch_connect ht]
      exact .of_connect rfl (.working rfl (by simp [ConnectParser.reset]) .reset)
    | connack =>
      rw [dispatch_connack ht]
      exact .of_status (.inr (.inl rfl))
    | publish =>
      rw [dispatch_publish ht]
      exact .of_publish rfl
        (.working rfl (by simp [PublishParser.reset, PublishMembers.IsReady]))
    | subscribe =>
      rw [dispatch_subscribe ht]
      exact .of_subscribe rfl
        (.working rfl (by simp [SubscribeParser.reset, SubscribeMembers.IsReady]))
    | suback =>
      rw [dispatch_suback ht]
      exact .of_subAck rfl (.working rfl (by simp [SubAckParser.reset, SubAckMembers.IsReady]))
    | pingreq | pingresp | disconnect =>
      rw [dispatch_bodyless (by rw [ht, bodyless])]
      exact .of_status (.inr (.inr rfl))
    | none | reserved | puback | pubrec | pubrel | pubcomp | unsubscribe | unsuback =>
      simp [ht, Handled] at h
  · obtain ⟨e, he⟩ := dispatch_unhandled h ec
    rw [he]
    exact .of_status (.inl hstart)

/-- The calls whose result fits the error code: the parser is not waiting for
`consumePacket`, and a CONNECT packet in progress is none of the two cases of
`ConnectParser`. -/
def Regular (p : MQTTParser) (call : Call) : Prop :=
  p.status ≠ .ready ∧ (p.status = .connect →
    ¬ ConnectParser.SilentFailure p.connectParser ∧
      ¬ ConnectParser.LateSuccess p.connectParser call.byte)

/-- **One call of `MQTTParser::parse`.** -/
theorem Sound.parse {p : MQTTParser} (h : p.Sound) (sort : TopicFilters → TopicFilters)
    (call : Call) : (p.parse sort call none).parser.Sound ∧
      ((p.parse sort call none).Agrees ↔ p.Regular call) := by
  unfold Regular
  cases hs : p.status with
  | start =>
    rcases (p.fixedHeaderParser.parse_agrees call.byte).cases with ⟨hr, hec⟩ | ⟨hr, hec⟩ | ⟨hr, hec⟩
    · rw [parse_start_indeterminate hs hr]
      exact ⟨.of_status (.inl hs), by simp [ParseResult.Agrees, hec]⟩
    · rw [parse_start_false hs hr]
      exact ⟨.of_status (.inl hs), by simp [ParseResult.Agrees, hec]⟩
    · rw [parse_start_true hs hr, hec]
      refine ⟨sound_dispatch ?_ none, by simp [dispatch_agrees]⟩
      exact hs
  | connect =>
    obtain ⟨hsound, hagrees⟩ := (h.connect hs).parse call.uuid call.byte
    rw [parse_connect hs, finish_agrees, hagrees]
    exact ⟨Sound.finish (.of_connect hs hsound), by simp⟩
  | connAck =>
    rw [parse_connAck hs, finish_agrees]
    exact ⟨Sound.finish (.of_status (.inr (.inl hs))),
      iff_of_true (p.connAckParser.parse_agrees call.byte) (by simp)⟩
  | publish =>
    obtain ⟨hagrees, hsound⟩ := PublishParser.parse_sound (h.publish hs) call.byte
    rw [parse_publish hs, finish_agrees]
    exact ⟨Sound.finish (.of_publish hs hsound), iff_of_true hagrees (by simp)⟩
  | subscribe =>
    obtain ⟨hagrees, hsound⟩ := SubscribeParser.parse_sound sort (h.subscribe hs) call.byte
    rw [parse_subscribe hs, finish_agrees]
    exact ⟨Sound.finish (.of_subscribe hs hsound), iff_of_true hagrees (by simp)⟩
  | subAck =>
    obtain ⟨hagrees, hsound⟩ := SubAckParser.parse_sound (h.subAck hs) call.byte
    rw [parse_subAck hs, finish_agrees]
    exact ⟨Sound.finish (.of_subAck hs hsound), iff_of_true hagrees (by simp)⟩
  | ready =>
    rw [parse_ready hs]
    exact ⟨h, by simp [ParseResult.Agrees]⟩

end MQTTParser

/-! ## §3 Results and error codes in a run -/

/-- The calls of `ConnectParser` whose result fits the error code. -/
def ConnectParser.Regular (p : ConnectParser) (call : Call) : Prop :=
  ¬ SilentFailure p ∧ ¬ LateSuccess p call.byte

/-- **Results and error codes agree in a run of `MQTTParser` or `ConnectParser`
exactly when all its calls are regular, and in every run of the other body
parsers.** -/
theorem results_agree_iff (sort : TopicFilters → TopicFilters) (calls : List Call) (length : Nat)
    (qos : QoSLevel) :
    ((∀ a ∈ (MQTTParser.machine sort).outputs .new calls, AnswerAgrees a) ↔
      (MQTTParser.machine sort).Along MQTTParser.Regular .new calls) ∧
    ((∀ a ∈ ConnectParser.machine.outputs (.new length) calls, AnswerAgrees a) ↔
      ConnectParser.machine.Along ConnectParser.Regular (.new length) calls) ∧
    (∀ a ∈ PublishParser.machine.outputs (.new qos length) calls, AnswerAgrees a) ∧
    (∀ a ∈ (SubscribeParser.machine sort).outputs (.new length) calls, AnswerAgrees a) ∧
    (∀ a ∈ SubAckParser.machine.outputs (.new length) calls, AnswerAgrees a) := by
  refine ⟨?_, ?_, ?_, ?_, ?_⟩
  · refine Machine.forall_outputs_iff_along MQTTParser.Sound ?_ MQTTParser.sound_new calls
    intro p call hp
    obtain ⟨hsound, hagrees⟩ := hp.parse sort call
    exact ⟨hagrees, hsound⟩
  · refine Machine.forall_outputs_iff_along ConnectParser.Sound ?_
      (.working rfl (by simp [ConnectParser.new]) .reset) calls
    intro p call hp
    obtain ⟨hsound, hagrees⟩ := hp.parse call.uuid call.byte
    exact ⟨hagrees, hsound⟩
  · refine Machine.forall_outputs (BodyParser.Sound PublishMembers.IsReady) ?_
      (.working rfl (by simp [PublishParser.new, PublishMembers.IsReady])) calls
    exact fun p call hp => PublishParser.parse_sound hp call.byte
  · refine Machine.forall_outputs (BodyParser.Sound SubscribeMembers.IsReady) ?_
      (.working rfl (by simp [SubscribeParser.new, SubscribeMembers.IsReady])) calls
    exact fun p call hp => SubscribeParser.parse_sound sort hp call.byte
  · refine Machine.forall_outputs (BodyParser.Sound SubAckMembers.IsReady) ?_
      (.working rfl (by simp [SubAckParser.new, SubAckMembers.IsReady])) calls
    exact fun p call hp => SubAckParser.parse_sound hp call.byte

/-- A CONNECT packet with an empty client identifier and no flag set. -/
def emptyClientIdPacket : Bytes :=
  [0x10, 12, 0, 4, 0x4D, 0x51, 0x54, 0x54, 4, 0, 0, 60, 0, 0]

/-- The last byte of that packet makes the parser return true with the error
code set. -/
theorem results_disagree :
    ¬ ∀ a ∈ (MQTTParser.machine id).outputs .new (callsFor emptyClientIdPacket),
      AnswerAgrees a := by
  decide

/-! ## §4 Failures are final -/

/-- What can be done to a parser. -/
inductive ParserOp where
  | parse (call : Call)
  | reset
  | consumePacket

/-- A parser under all its operations, each `parse` with a clear error code. -/
def MQTTParser.operate (sort : TopicFilters → TopicFilters) :
    Machine MQTTParser ParserOp (Option (Tribool × ErrorCode))
  | p, .parse call => (some (machine sort p call).1, (machine sort p call).2)
  | p, .reset => (none, p.reset)
  | p, .consumePacket => (none, p.consumePacket.2)

namespace MQTTParser

/-- The next byte is a fifth byte of the remaining length, of a packet that the
parser handles. -/
def Overrun (p : MQTTParser) : Prop :=
  p.status = .start ∧ p.fixedHeaderParser.status = .readLength ∧
    p.fixedHeaderParser.decoder.multiplier > 128 * 128 * 128 ∧
    Handled p.fixedHeaderParser.header.controlPacketType

/-- The parsers that only fail. -/
inductive Dead (p : MQTTParser) : Prop
  | header (hs : p.status = .start) (hready : p.fixedHeaderParser.status = .ready)
      (htype : ¬ Handled p.fixedHeaderParser.header.controlPacketType)
  | connect (hs : p.status = .connect) (hret : p.connectParser.ret = .det false)
  | connAck (hs : p.status = .connAck) (hready : p.connAckParser.status = .ready)
  | publish (hs : p.status = .publish) (hstuck : p.publishParser.Stuck PublishMembers.IsReady)
  | subscribe (hs : p.status = .subscribe)
      (hstuck : p.subscribeParser.Stuck SubscribeMembers.IsReady)
  | subAck (hs : p.status = .subAck) (hstuck : p.subAckParser.Stuck SubAckMembers.IsReady)
  | ready (hs : p.status = .ready)

theorem sound_operate (sort : TopicFilters → TopicFilters) (ops : List ParserOp) :
    ((operate sort).after new ops).Sound := by
  refine Machine.inv_after _ (fun p op hp => ?_) sound_new ops
  cases op with
  | parse call => exact (hp.parse sort call).1
  | reset => exact sound_reset p
  | consumePacket => exact .of_status (.inl rfl)

/-- A complete fixed header, and what it leads to. -/
theorem parse_header_ready {p : MQTTParser} (hs : p.status = .start)
    (hready : p.fixedHeaderParser.status = .ready) (sort : TopicFilters → TopicFilters)
    (call : Call) (ec : ErrorCode) : p.parse sort call ec = p.dispatch ec := by
  have hr : p.fixedHeaderParser.parse call.byte ec = ⟨.det true, ec, p.fixedHeaderParser⟩ := by
    simp [FixedHeaderParser.parse, hready]
  rw [parse_start_true hs (by rw [hr]), hr]

theorem Dead.parse {p : MQTTParser} (h : p.Dead) (sort : TopicFilters → TopicFilters)
    (call : Call) (ec : ErrorCode) :
    (p.parse sort call ec).ret = .det false ∧ (p.parse sort call ec).parser.Dead := by
  cases h with
  | header hs hready htype =>
    obtain ⟨e, he⟩ := dispatch_unhandled htype ec
    rw [parse_header_ready hs hready, he]
    exact ⟨rfl, .header hs hready htype⟩
  | connect hs hret =>
    obtain ⟨hfalse, hret'⟩ := ConnectParser.parse_failed hret call.uuid call.byte ec
    rw [parse_connect hs, finish_ret, finish_keeps (by simp [hfalse])]
    exact ⟨hfalse, .connect hs hret'⟩
  | connAck hs hready =>
    have hr : p.connAckParser.parse call.byte ec =
        ⟨.det false, some .packetIdentifierLengthViolation, p.connAckParser⟩ := by
      simp [ConnectAckParser.parse, hready]
    rw [parse_connAck hs, finish_ret, finish_keeps (by simp [hr]), hr]
    exact ⟨rfl, .connAck hs hready⟩
  | publish hs hstuck =>
    obtain ⟨hfalse, hstuck'⟩ := PublishParser.parse_stuck hstuck call.byte ec
    rw [parse_publish hs, finish_ret, finish_keeps (by simp [hfalse])]
    exact ⟨hfalse, .publish hs hstuck'⟩
  | subscribe hs hstuck =>
    obtain ⟨hfalse, hstuck'⟩ := SubscribeParser.parse_stuck sort hstuck call.byte ec
    rw [parse_subscribe hs, finish_ret, finish_keeps (by simp [hfalse])]
    exact ⟨hfalse, .subscribe hs hstuck'⟩
  | subAck hs hstuck =>
    obtain ⟨hfalse, hstuck'⟩ := SubAckParser.parse_stuck hstuck call.byte ec
    rw [parse_subAck hs, finish_ret, finish_keeps (by simp [hfalse])]
    exact ⟨hfalse, .subAck hs hstuck'⟩
  | ready hs =>
    rw [parse_ready hs]
    exact ⟨rfl, .ready hs⟩

/-- A failure while the fixed header is read. -/
theorem dead_header {p : MQTTParser} (hs : p.status = .start) {sort : TopicFilters → TopicFilters}
    {call : Call} (hfalse : (p.parse sort call none).ret = .det false) (hlength : ¬ p.Overrun) :
    (p.parse sort call none).parser.Dead := by
  cases hr : (p.fixedHeaderParser.parse call.byte none).ret with
  | indeterminate =>
    rw [parse_start_indeterminate hs hr] at hfalse
    simp at hfalse
  | det b =>
    cases b with
    | true =>
      rw [parse_start_true hs hr] at hfalse ⊢
      by_cases htype : Handled
          (p.fixedHeaderParser.parse call.byte none).parser.header.controlPacketType
      · exact absurd hfalse (dispatch_handled (p := { p with fixedHeaderParser := _ }) htype _).1
      · obtain ⟨e, he⟩ := dispatch_unhandled (p := { p with fixedHeaderParser := _ }) htype
          (p.fixedHeaderParser.parse call.byte none).ec
        rw [he]
        exact .header hs (FixedHeaderParser.ready_of_true hr) htype
    | false =>
      rw [parse_start_false hs hr]
      rcases FixedHeaderParser.cases_of_false hr with ⟨hready, hnone⟩ | ⟨hread, hm, hready, hsame⟩
      · exact .header hs hready (by rw [hnone]; decide)
      · refine .header hs hready ?_
        rw [hsame]
        exact fun htype => hlength ⟨hs, hread, hm, htype⟩

/-- Every failure but the one by a fifth length byte leaves a dead parser. -/
theorem Sound.dead {p : MQTTParser} (h : p.Sound) {sort : TopicFilters → TopicFilters}
    {call : Call} (hfalse : (p.parse sort call none).ret = .det false) (hlength : ¬ p.Overrun) :
    (p.parse sort call none).parser.Dead := by
  cases hs : p.status with
  | start => exact dead_header hs hfalse hlength
  | connect =>
    rw [parse_connect hs, finish_ret] at hfalse
    rw [parse_connect hs, finish_keeps (by simp [hfalse])]
    refine .connect hs ?_
    rw [← hfalse]
    exact (BodyParser.parse_ret _ _).symm
  | connAck =>
    rw [parse_connAck hs, finish_ret] at hfalse
    rw [parse_connAck hs, finish_keeps (by simp [hfalse])]
    exact .connAck hs (ConnectAckParser.ready_of_false hfalse)
  | publish =>
    have hsound := (PublishParser.parse_sound (h.publish hs) call.byte).2
    rw [parse_publish hs, finish_ret] at hfalse
    rw [parse_publish hs, finish_keeps (by simp [hfalse])]
    refine .publish hs (hsound.stuck ?_)
    rw [← hfalse]
    exact (BodyParser.parse_ret _ _).symm
  | subscribe =>
    have hsound := (SubscribeParser.parse_sound sort (h.subscribe hs) call.byte).2
    rw [parse_subscribe hs, finish_ret] at hfalse
    rw [parse_subscribe hs, finish_keeps (by simp [hfalse])]
    refine .subscribe hs (hsound.stuck ?_)
    rw [← hfalse]
    exact (BodyParser.parse_ret _ _).symm
  | subAck =>
    have hsound := (SubAckParser.parse_sound (h.subAck hs) call.byte).2
    rw [parse_subAck hs, finish_ret] at hfalse
    rw [parse_subAck hs, finish_keeps (by simp [hfalse])]
    refine .subAck hs (hsound.stuck ?_)
    rw [← hfalse]
    exact (BodyParser.parse_ret _ _).symm
  | ready =>
    rw [parse_ready hs]
    exact .ready hs

/-- After a fifth length byte the parser goes on as if the header were
complete. -/
theorem Overrun.goes_on {p : MQTTParser} (h : p.Overrun) (sort : TopicFilters → TopicFilters)
    (call next : Call) :
    ((p.parse sort call none).parser.parse sort next none).ret ≠ .det false := by
  obtain ⟨hs, hread, hmult, htype⟩ := h
  obtain ⟨value, decoder, ⟨-, hd⟩ | ⟨hn, -⟩ | ⟨hn, -⟩⟩ :=
    p.fixedHeaderParser.decoder.decode_cases call.byte none
  · have hr : p.fixedHeaderParser.parse call.byte none = ⟨.det false, some .malformedRemainingLength,
        { p.fixedHeaderParser with decoder := decoder, status := .ready }⟩ := by
      simp [FixedHeaderParser.parse, hread, hd]
    rw [parse_start_false hs (by rw [hr]), hr]
    let q : MQTTParser := { p with
      fixedHeaderParser := { p.fixedHeaderParser with decoder := decoder, status := .ready } }
    have hq : q.parse sort next none = q.dispatch none :=
      parse_header_ready (p := q) hs rfl sort next none
    have htype : Handled q.fixedHeaderParser.header.controlPacketType := htype
    show (q.parse sort next none).ret ≠ .det false
    rw [hq]
    exact (dispatch_handled htype none).1
  · exact absurd hmult hn
  · exact absurd hmult hn

end MQTTParser

/-- **A failure is final exactly when the failing byte was not a fifth byte of
the remaining length**, of a packet type that the parser handles. -/
theorem errors_final_iff (sort : TopicFilters → TopicFilters) (ops : List ParserOp) (call : Call)
    (hfalse : (((MQTTParser.operate sort).after .new ops).parse sort call none).ret = .det false) :
    (∀ calls, ∀ a ∈ (MQTTParser.machine sort).outputs
        (((MQTTParser.operate sort).after .new ops).parse sort call none).parser calls,
      a.1 = .det false) ↔
    ¬ ((MQTTParser.operate sort).after .new ops).Overrun := by
  constructor
  · intro hall hover
    exact hover.goes_on sort call call (hall [call] _ (by simp [MQTTParser.machine]; rfl))
  · intro hlength calls
    have hdead := (MQTTParser.sound_operate sort ops).dead hfalse hlength
    exact Machine.forall_outputs MQTTParser.Dead (fun p c hp => hp.parse sort c none) hdead calls

/-- A packet of type 0 fails at once, and for good. -/
theorem errors_final_iff_typeNone :
    (∀ calls, ∀ a ∈ (MQTTParser.machine id).outputs
        (((MQTTParser.operate id).after .new []).parse id ⟨0, []⟩ none).parser calls,
      a.1 = .det false) ↔
    ¬ ((MQTTParser.operate id).after .new []).Overrun :=
  errors_final_iff id [] ⟨0, []⟩ (by decide)

/-- The first five bytes of a PINGREQ packet whose length has five bytes. -/
def overlongPing : List ParserOp :=
  (callsFor [0xC0, 0x80, 0x80, 0x80, 0x80]).map .parse

/-- The fifth length byte is refused, and the byte behind it accepts the packet. -/
theorem error_not_final :
    (((MQTTParser.operate id).after .new overlongPing).parse id ⟨0, []⟩ none).ret = .det false ∧
      ¬ ∀ calls, ∀ a ∈ (MQTTParser.machine id).outputs
        (((MQTTParser.operate id).after .new overlongPing).parse id ⟨0, []⟩ none).parser calls,
        a.1 = .det false := by
  refine ⟨by decide, fun h => ?_⟩
  have hnext := h [⟨0, []⟩] (.det true, none) (by decide)
  simp at hnext

end Acatl.Mqtt

/-
Acatl.Mqtt.Parser — `mqtt_parser.h`: `MQTTParser`, which reads a fixed header
and hands the bytes behind it to the parser for the packet's body.

A `Call` is one call of `parse`: the byte, and the string the generator of
client identifiers would return during the call. Every statement about runs
quantifies over all calls, and so over all generators.
-/
import Acatl.Mqtt.BodyParsers

namespace Acatl.Mqtt

/-- The argument of `MQTTParser::parse`, and what `UuidGenerator::generate()`
would answer to it. -/
structure Call where
  byte : UInt8
  uuid : Bytes
  deriving DecidableEq

/-- The calls for some bytes, with an empty answer of the generator. -/
def callsFor (bytes : Bytes) : List Call := bytes.map fun byte => ⟨byte, []⟩

/-- `MQTTParser::Status`. -/
inductive MQTTParser.Status where
  | start
  | connect
  | connAck
  | publish
  | subscribe
  | subAck
  | ready
  deriving DecidableEq

/-- `MQTTParser`. -/
structure MQTTParser where
  status : MQTTParser.Status := .start
  fixedHeaderParser : FixedHeaderParser := {}
  connectParser : ConnectParser := .new 0
  connAckParser : ConnectAckParser := {}
  publishParser : PublishParser := .new .atMostOnce 0
  subscribeParser : SubscribeParser := .new 0
  subAckParser : SubAckParser := .new 0
  packet : Option ControlPacket := none

namespace MQTTParser

/-- `MQTTParser::MQTTParser`. -/
def new : MQTTParser := {}

/-- `MQTTParser::reset`. -/
def reset (p : MQTTParser) : MQTTParser := { p with status := .start, fixedHeaderParser := .reset }

/-- What `parse` does when the fixed header is complete. -/
def dispatch (p : MQTTParser) (ec : ErrorCode) : ParseResult MQTTParser :=
  let header := p.fixedHeaderParser.header
  let length := header.length.toNat
  let complete (body : PacketBody) : ParseResult MQTTParser :=
    ⟨.det true, ec, { p with packet := some ⟨header, body⟩, status := .ready }⟩
  match header.controlPacketType with
  | .none | .reserved => ⟨.det false, some .invalidControlPacketType, p⟩
  | .connect =>
    ⟨.indeterminate, ec, { p with
      connectParser := ConnectParser.reset p.connectParser length
      status := .connect }⟩
  | .connack =>
    ⟨.indeterminate, ec, { p with connAckParser := p.connAckParser.reset, status := .connAck }⟩
  | .publish =>
    let qos := QoSLevel.ofBits ((header.flags &&& 0x06) >>> 1)
    ⟨.indeterminate, ec, { p with
      publishParser := PublishParser.reset p.publishParser qos length
      status := .publish }⟩
  | .puback | .pubrec | .pubrel | .pubcomp | .unsubscribe | .unsuback =>
    ⟨.det false, some .featureNotImplemented, p⟩
  | .subscribe =>
    ⟨.indeterminate, ec, { p with
      subscribeParser := SubscribeParser.reset p.subscribeParser length
      status := .subscribe }⟩
  | .suback =>
    ⟨.indeterminate, ec, { p with
      subAckParser := SubAckParser.reset p.subAckParser length
      status := .subAck }⟩
  | .pingreq => complete .pingReq
  | .pingresp => complete .pingResp
  | .disconnect => complete .disconnect

/-- The case of `parse` for each body parser: `p` holds that parser as the
call `r` left it, and `body` is the packet it has filled. -/
def finish {P : Type} (p : MQTTParser) (r : ParseResult P) (body : PacketBody) :
    ParseResult MQTTParser :=
  if r.ret.isFalse then
    ⟨.det false, r.ec, p⟩
  else if r.ret.isTrue then
    ⟨.det true, r.ec, { p with packet := some ⟨p.fixedHeaderParser.header, body⟩, status := .ready }⟩
  else
    ⟨.indeterminate, r.ec, p⟩

/-- `MQTTParser::parse`. -/
def parse (sort : TopicFilters → TopicFilters) (p : MQTTParser) (call : Call) (ec : ErrorCode) :
    ParseResult MQTTParser :=
  match p.status with
  | .start =>
    let r := p.fixedHeaderParser.parse call.byte ec
    let p := { p with fixedHeaderParser := r.parser }
    if r.ret.isFalse then
      ⟨.det false, r.ec, p⟩
    else if r.ret.isTrue then
      p.dispatch r.ec
    else
      ⟨.indeterminate, r.ec, p⟩
  | .connect =>
    let r := ConnectParser.parse call.uuid p.connectParser call.byte ec
    { p with connectParser := r.parser }.finish r (.connect r.parser.own.packet)
  | .connAck =>
    let r := p.connAckParser.parse call.byte ec
    { p with connAckParser := r.parser }.finish r (.connAck r.parser.packet)
  | .publish =>
    let r := PublishParser.parse p.publishParser call.byte ec
    { p with publishParser := r.parser }.finish r (.publish r.parser.own.packet)
  | .subscribe =>
    let r := SubscribeParser.parse sort p.subscribeParser call.byte ec
    { p with subscribeParser := r.parser }.finish r (.subscribe r.parser.own.packet)
  | .subAck =>
    let r := SubAckParser.parse p.subAckParser call.byte ec
    { p with subAckParser := r.parser }.finish r (.subAck r.parser.own.packet)
  | .ready => ⟨.det false, ec, p⟩

/-- `MQTTParser::consumePacket`. -/
def consumePacket (p : MQTTParser) : Option ControlPacket × MQTTParser :=
  (p.packet, { p.reset with packet := none })

/-! ## One call, by status and packet type -/

section

variable {P : Type} {p : MQTTParser} {r : ParseResult P} {body : PacketBody}

@[simp] theorem finish_ret : (p.finish r body).ret = r.ret := by
  unfold finish
  cases h : r.ret with
  | indeterminate => rfl
  | det b => cases b <;> rfl

@[simp] theorem finish_ec : (p.finish r body).ec = r.ec := by
  unfold finish
  split
  · rfl
  · split <;> rfl

/-- Until the body is complete the parser only keeps the body parser. -/
theorem finish_keeps (h : r.ret ≠ .det true) : (p.finish r body).parser = p := by
  unfold finish
  cases hr : r.ret with
  | indeterminate => rfl
  | det b =>
    cases b with
    | false => rfl
    | true => exact absurd hr h

theorem finish_done (h : r.ret = .det true) :
    (p.finish r body).parser =
      { p with packet := some ⟨p.fixedHeaderParser.header, body⟩, status := .ready } := by
  simp [finish, h]

end

/-- The packet types that `MQTTParser` handles. -/
def Handled : ControlPacketType → Prop
  | .connect | .connack | .publish | .subscribe | .suback | .pingreq | .pingresp | .disconnect =>
    True
  | .none | .reserved | .puback | .pubrec | .pubrel | .pubcomp | .unsubscribe | .unsuback => False

instance (t : ControlPacketType) : Decidable (Handled t) := by
  cases t <;> unfold Handled <;> infer_instance

section

variable {p : MQTTParser} {ec : ErrorCode}

theorem dispatch_connect (h : p.fixedHeaderParser.header.controlPacketType = .connect) :
    p.dispatch ec = ⟨.indeterminate, ec, { p with
      connectParser := ConnectParser.reset p.connectParser p.fixedHeaderParser.header.length.toNat
      status := .connect }⟩ := by
  simp [dispatch, h]

theorem dispatch_connack (h : p.fixedHeaderParser.header.controlPacketType = .connack) :
    p.dispatch ec = ⟨.indeterminate, ec, { p with
      connAckParser := p.connAckParser.reset
      status := .connAck }⟩ := by
  simp [dispatch, h]

theorem dispatch_publish (h : p.fixedHeaderParser.header.controlPacketType = .publish) :
    p.dispatch ec = ⟨.indeterminate, ec, { p with
      publishParser := PublishParser.reset p.publishParser
        (.ofBits ((p.fixedHeaderParser.header.flags &&& 0x06) >>> 1))
        p.fixedHeaderParser.header.length.toNat
      status := .publish }⟩ := by
  simp [dispatch, h]

theorem dispatch_subscribe (h : p.fixedHeaderParser.header.controlPacketType = .subscribe) :
    p.dispatch ec = ⟨.indeterminate, ec, { p with
      subscribeParser := SubscribeParser.reset p.subscribeParser
        p.fixedHeaderParser.header.length.toNat
      status := .subscribe }⟩ := by
  simp [dispatch, h]

theorem dispatch_suback (h : p.fixedHeaderParser.header.controlPacketType = .suback) :
    p.dispatch ec = ⟨.indeterminate, ec, { p with
      subAckParser := SubAckParser.reset p.subAckParser p.fixedHeaderParser.header.length.toNat
      status := .subAck }⟩ := by
  simp [dispatch, h]

/-- The packets without a body that the parser reads. -/
def bodyless : ControlPacketType → Option PacketBody
  | .pingreq => some .pingReq
  | .pingresp => some .pingResp
  | .disconnect => some .disconnect
  | _ => none

theorem dispatch_bodyless {body : PacketBody}
    (h : bodyless p.fixedHeaderParser.header.controlPacketType = some body) :
    p.dispatch ec = ⟨.det true, ec, { p with
      packet := some ⟨p.fixedHeaderParser.header, body⟩
      status := .ready }⟩ := by
  cases ht : p.fixedHeaderParser.header.controlPacketType <;> simp [ht, bodyless] at h <;>
    simp [dispatch, ht, h]

theorem dispatch_unhandled (h : ¬ Handled p.fixedHeaderParser.header.controlPacketType)
    (ec : ErrorCode) :
    ∃ e, p.dispatch ec = ⟨.det false, some e, p⟩ := by
  cases ht : p.fixedHeaderParser.header.controlPacketType <;> simp [ht, Handled] at h <;>
    simp [dispatch, ht]

theorem dispatch_handled (h : Handled p.fixedHeaderParser.header.controlPacketType)
    (ec : ErrorCode) :
    (p.dispatch ec).ret ≠ .det false ∧ (p.dispatch ec).ec = ec := by
  cases ht : p.fixedHeaderParser.header.controlPacketType <;> simp [ht, Handled] at h <;>
    simp [dispatch, ht]

end

section

variable {sort : TopicFilters → TopicFilters} {p : MQTTParser} {call : Call} {ec : ErrorCode}

theorem parse_start_indeterminate (hs : p.status = .start)
    (hr : (p.fixedHeaderParser.parse call.byte ec).ret = .indeterminate) :
    p.parse sort call ec = ⟨.indeterminate, (p.fixedHeaderParser.parse call.byte ec).ec,
      { p with fixedHeaderParser := (p.fixedHeaderParser.parse call.byte ec).parser }⟩ := by
  simp [parse, hs, hr]

theorem parse_start_false (hs : p.status = .start)
    (hr : (p.fixedHeaderParser.parse call.byte ec).ret = .det false) :
    p.parse sort call ec = ⟨.det false, (p.fixedHeaderParser.parse call.byte ec).ec,
      { p with fixedHeaderParser := (p.fixedHeaderParser.parse call.byte ec).parser }⟩ := by
  simp [parse, hs, hr]

theorem parse_start_true (hs : p.status = .start)
    (hr : (p.fixedHeaderParser.parse call.byte ec).ret = .det true) :
    p.parse sort call ec =
      { p with fixedHeaderParser := (p.fixedHeaderParser.parse call.byte ec).parser }.dispatch
        (p.fixedHeaderParser.parse call.byte ec).ec := by
  simp [parse, hs, hr]

theorem parse_connect (hs : p.status = .connect) :
    p.parse sort call ec =
      let r := ConnectParser.parse call.uuid p.connectParser call.byte ec
      { p with connectParser := r.parser }.finish r (.connect r.parser.own.packet) := by
  rw [parse, hs]

theorem parse_connAck (hs : p.status = .connAck) :
    p.parse sort call ec =
      let r := p.connAckParser.parse call.byte ec
      { p with connAckParser := r.parser }.finish r (.connAck r.parser.packet) := by
  rw [parse, hs]

theorem parse_publish (hs : p.status = .publish) :
    p.parse sort call ec =
      let r := PublishParser.parse p.publishParser call.byte ec
      { p with publishParser := r.parser }.finish r (.publish r.parser.own.packet) := by
  rw [parse, hs]

theorem parse_subscribe (hs : p.status = .subscribe) :
    p.parse sort call ec =
      let r := SubscribeParser.parse sort p.subscribeParser call.byte ec
      { p with subscribeParser := r.parser }.finish r (.subscribe r.parser.own.packet) := by
  rw [parse, hs]

theorem parse_subAck (hs : p.status = .subAck) :
    p.parse sort call ec =
      let r := SubAckParser.parse p.subAckParser call.byte ec
      { p with subAckParser := r.parser }.finish r (.subAck r.parser.own.packet) := by
  rw [parse, hs]

theorem parse_ready (hs : p.status = .ready) : p.parse sort call ec = ⟨.det false, ec, p⟩ := by
  rw [parse, hs]

end

end MQTTParser

end Acatl.Mqtt

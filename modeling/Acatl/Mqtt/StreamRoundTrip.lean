/-
Acatl.Mqtt.StreamRoundTrip — packets that `Serializer` writes one behind the
other, and what `MQTTParser` reads of them.

A parser that has read a packet is not a new parser: the next CONNECT, SUBSCRIBE
or SUBACK packet is read into what is left of the one before (`MQTTParser.Held`).
`readBack` says what comes out, packet by packet.

  §1  a CONNECT body as it is written;
  §2  what a frame leaves in the body parsers;
  §3  the frame of one packet, for a parser that has read others;
  §4  `stream_read`: any beginning of a stream of packets;
  §5  `packets_arrive`: the same for what the sending side of a connection gives
      to its socket.
-/
import Acatl.Lib.Framing
import Acatl.Mqtt.ParserIsolation
import Acatl.Mqtt.SendQueue
import Acatl.Mqtt.SubscribeRoundTrip

namespace Acatl.Mqtt

open Acatl.Lib

/-! ## §1 CONNECT -/

/-- A CONNECT packet whose body can be read: both authorization strings or none,
and the lower two levels for the will. -/
structure ConnectControlPacket.Carried (c : ConnectControlPacket) : Prop where
  named : c.clientId ≠ []
  fits : c.clientId.length < 2 ^ 16
  leveled : c.willQoSLevel = .atMostOnce ∨ c.willQoSLevel = .atLeastOnce
  will : c.willFlag = true → c.willTopic.length < 2 ^ 16 ∧ c.willMessage.length < 2 ^ 16
  authorized : c.passwordFlag = c.userNameFlag
  user : c.userNameFlag = true → c.userName.length < 2 ^ 16 ∧ c.password.length < 2 ^ 16

/-- A CONNECT packet as it is read behind `before`: strings that it does not have
are still those of `before`. -/
def ConnectControlPacket.readAfter (c before : ConnectControlPacket) : ConnectControlPacket :=
  { c with
    protocolLevel := 4
    willTopic := if c.willFlag then c.willTopic else before.willTopic
    willMessage := if c.willFlag then c.willMessage else before.willMessage
    userName := if c.userNameFlag then c.userName else before.userName
    password := if c.userNameFlag then c.password else before.password }

section

variable {c : ConnectControlPacket} (packet : ConnectControlPacket)

/-- The flags are read as they were written. -/
theorem setFlags_flags (hleveled : c.willQoSLevel = .atMostOnce ∨ c.willQoSLevel = .atLeastOnce) :
    c.flags &&& 0x01 = 0 ∧ ConnectParser.setFlags packet c.flags = { packet with
      cleanSession := c.cleanSession
      willFlag := c.willFlag
      willQoSLevel := c.willQoSLevel
      willRetain := c.willRetain
      passwordFlag := c.passwordFlag
      userNameFlag := c.userNameFlag } := by
  unfold ConnectControlPacket.flags
  rcases hleveled with hlevel | hlevel <;> rw [hlevel] <;> cases c.userNameFlag <;>
    cases c.passwordFlag <;> cases c.willRetain <;> cases c.willFlag <;> cases c.cleanSession <;>
    exact ⟨rfl, rfl⟩

theorem authorizationOutcome_bytes (huser : packet.userNameFlag = c.userNameFlag)
    (hc : c.Carried) :
    authorizationOutcome packet ((if c.userNameFlag then stringBytes c.userName else []) ++
        if c.passwordFlag then stringBytes c.password else []) =
      .accepted { packet with
        userName := if c.userNameFlag then c.userName else packet.userName
        password := if c.userNameFlag then c.password else packet.password } [] := by
  rw [hc.authorized]
  cases hflag : c.userNameFlag with
  | true =>
    obtain ⟨hname, hpassword⟩ := hc.user hflag
    have htail : takeString (stringBytes c.password) = some (c.password, []) := by
      have htake := takeString_stringBytes hpassword []
      rwa [List.append_nil] at htake
    rw [authorizationOutcome_user (huser.trans hflag)]
    simp only [if_true]
    rw [afterString_some (takeString_stringBytes hname _), passwordOutcome, afterString_some htail]
    rfl
  | false =>
    rw [authorizationOutcome_none (huser.trans hflag)]
    rfl

theorem optionalOutcome_bytes (hwill : packet.willFlag = c.willFlag)
    (huser : packet.userNameFlag = c.userNameFlag) (hc : c.Carried) :
    optionalOutcome packet
        ((if c.willFlag then stringBytes c.willTopic ++ stringBytes c.willMessage else []) ++
          ((if c.userNameFlag then stringBytes c.userName else []) ++
            if c.passwordFlag then stringBytes c.password else [])) =
      .accepted { packet with
        willTopic := if c.willFlag then c.willTopic else packet.willTopic
        willMessage := if c.willFlag then c.willMessage else packet.willMessage
        userName := if c.userNameFlag then c.userName else packet.userName
        password := if c.userNameFlag then c.password else packet.password } [] := by
  cases hflag : c.willFlag with
  | true =>
    obtain ⟨htopic, hmessage⟩ := hc.will hflag
    rw [optionalOutcome_will (hwill.trans hflag)]
    simp only [if_true, List.append_assoc]
    rw [afterString_some (takeString_stringBytes htopic _),
      afterString_some (takeString_stringBytes hmessage _),
      authorizationOutcome_bytes _ (by exact huser) hc]
  | false =>
    rw [optionalOutcome_none (hwill.trans hflag)]
    exact authorizationOutcome_bytes packet huser hc

/-- **A CONNECT body as it is written.** -/
theorem connectOutcome_bytes (uuid : Bytes) (hc : c.Carried) :
    connectOutcome uuid packet (PacketBody.connect c).bytes =
      .accepted (c.readAfter packet) [] := by
  obtain ⟨hreserved, hflags⟩ := setFlags_flags (c := c) { packet with protocolLevel := 0x04 }
    hc.leveled
  have hbytes : (PacketBody.connect c).bytes = stringBytes ConnectParser.protocolName ++
      (0x04 :: c.flags :: msb c.keepAlive :: lsb c.keepAlive :: (stringBytes c.clientId ++
        ((if c.willFlag then stringBytes c.willTopic ++ stringBytes c.willMessage else []) ++
          ((if c.userNameFlag then stringBytes c.userName else []) ++
            if c.passwordFlag then stringBytes c.password else [])))) := by
    have hname : stringBytes ConnectParser.protocolName =
        [0, 4, 0x4D, 0x51, 0x54, 0x54] := by decide
    rw [PacketBody.bytes_connect, hname]
    simp
  have hid : ¬ (c.clientId = [] ∧ c.cleanSession = false ∧
      (c.willFlag = true ∨ c.userNameFlag = true)) := fun h => hc.named h.1
  rw [hbytes, connectOutcome, afterString_some (takeString_stringBytes (by decide) _),
    if_neg (by simp)]
  dsimp only
  rw [if_neg (by simp), flagsOutcome, if_neg (by rw [hreserved]; simp)]
  dsimp only
  rw [hflags, clientIdOutcome, afterString_some (takeString_stringBytes hc.fits _), if_neg hid,
    if_neg hc.named, join_msb_lsb]
  exact optionalOutcome_bytes (c := c) { c with
    protocolLevel := 4
    willTopic := packet.willTopic
    willMessage := packet.willMessage
    userName := packet.userName
    password := packet.password } rfl rfl hc

end

/-! ## §2 What a frame leaves -/

namespace MQTTParser

/-- The packets that the body parsers fill. A CONNACK packet is written over and
a PUBLISH packet starts with an empty payload, so they do not matter. -/
structure Held where
  connect : ConnectControlPacket := {}
  subscribe : SubscribeControlPacket := {}
  subAck : SubAckControlPacket := {}

def held (p : MQTTParser) : Held :=
  ⟨p.connectParser.own.packet, p.subscribeParser.own.packet, p.subAckParser.own.packet⟩

/-- After a packet that was read. -/
def Held.put (h : Held) : PacketBody → Held
  | .connect c => { h with connect := c }
  | .subscribe s => { h with subscribe := s }
  | .subAck s => { h with subAck := s }
  | .connAck _ | .publish _ | .pingReq | .pingResp | .disconnect => h

/-- All body parsers but the one in use hold what they held before. -/
structure Untouched (old : Held) (p : MQTTParser) : Prop where
  connect : p.status ≠ .connect → p.connectParser.own.packet = old.connect
  subscribe : p.status ≠ .subscribe → p.subscribeParser.own.packet = old.subscribe
  subAck : p.status ≠ .subAck → p.subAckParser.own.packet = old.subAck

/-- What a call leaves: more to read, or a packet. -/
structure Leaves (old : Held) (r : ParseResult MQTTParser) : Prop where
  more : r.ret = .indeterminate → r.parser.Untouched old ∧ r.parser.status ≠ .ready
  done : r.ret = .det true →
    ∃ packet, r.parser.packet = some packet ∧ r.parser.held = old.put packet.body

section

variable {old : Held} {p : MQTTParser} {sort : TopicFilters → TopicFilters}

theorem Leaves.of_more {ec : ErrorCode} (h : p.Untouched old) (hs : p.status ≠ .ready) :
    Leaves old ⟨.indeterminate, ec, p⟩ :=
  ⟨fun _ => ⟨h, hs⟩, by simp⟩

theorem Leaves.of_false {ec : ErrorCode} : Leaves old ⟨.det false, ec, p⟩ :=
  ⟨by simp, by simp⟩

/-- The end of a call that a body parser has decided. -/
theorem Leaves.of_finish {P : Type} {r : ParseResult P} {body : PacketBody} (h : p.Untouched old)
    (hs : p.status ≠ .ready) (hput : p.held = old.put body) : Leaves old (p.finish r body) := by
  constructor
  · intro hret
    rw [finish_ret] at hret
    rw [finish_keeps (by simp [hret])]
    exact ⟨h, hs⟩
  · intro hret
    rw [finish_ret] at hret
    rw [finish_done hret]
    exact ⟨_, rfl, hput⟩

/-- The call that completes the fixed header. -/
theorem Untouched.dispatch (h : p.Untouched old) (hs : p.status = .start) (ec : ErrorCode) :
    Leaves old (p.dispatch ec) := by
  have hconnect := h.connect (by simp [hs])
  have hsubscribe := h.subscribe (by simp [hs])
  have hsubAck := h.subAck (by simp [hs])
  cases ht : p.fixedHeaderParser.header.controlPacketType with
  | connect =>
    rw [dispatch_connect ht]
    exact .of_more ⟨fun _ => hconnect, fun _ => hsubscribe, fun _ => hsubAck⟩ (by simp)
  | connack =>
    rw [dispatch_connack ht]
    exact .of_more ⟨fun _ => hconnect, fun _ => hsubscribe, fun _ => hsubAck⟩ (by simp)
  | publish =>
    rw [dispatch_publish ht]
    exact .of_more ⟨fun _ => hconnect, fun _ => hsubscribe, fun _ => hsubAck⟩ (by simp)
  | subscribe =>
    rw [dispatch_subscribe ht]
    exact .of_more ⟨fun _ => hconnect, fun _ => hsubscribe, fun _ => hsubAck⟩ (by simp)
  | suback =>
    rw [dispatch_suback ht]
    exact .of_more ⟨fun _ => hconnect, fun _ => hsubscribe, fun _ => hsubAck⟩ (by simp)
  | pingreq | pingresp | disconnect =>
    rw [dispatch_bodyless (by rw [ht, bodyless])]
    refine ⟨by simp, fun _ => ⟨_, rfl, ?_⟩⟩
    show Held.mk p.connectParser.own.packet p.subscribeParser.own.packet
      p.subAckParser.own.packet = old
    rw [hconnect, hsubscribe, hsubAck]
  | none | reserved | puback | pubrec | pubrel | pubcomp | unsubscribe | unsuback =>
    obtain ⟨e, he⟩ := dispatch_unhandled (p := p) (by simp [ht, Handled]) ec
    rw [he]
    exact .of_false

/-- **One call in the middle of a packet.** -/
theorem Untouched.parse (h : p.Untouched old) (hs : p.status ≠ .ready) (call : Call) :
    Leaves old (p.parse sort call none) := by
  cases hstatus : p.status with
  | start =>
    have hparser : ∀ hp : FixedHeaderParser, Untouched old { p with fixedHeaderParser := hp } :=
      fun _ => ⟨h.connect, h.subscribe, h.subAck⟩
    rcases (p.fixedHeaderParser.parse_agrees call.byte).cases with ⟨hr, -⟩ | ⟨hr, -⟩ | ⟨hr, -⟩
    · rw [parse_start_indeterminate hstatus hr]
      exact .of_more (hparser _) hs
    · rw [parse_start_false hstatus hr]
      exact .of_false
    · rw [parse_start_true hstatus hr]
      have hcomplete := hparser (p.fixedHeaderParser.parse call.byte none).parser
      exact hcomplete.dispatch hstatus _
  | connect =>
    have hsubscribe := h.subscribe (by simp [hstatus])
    have hsubAck := h.subAck (by simp [hstatus])
    rw [parse_connect hstatus]
    refine .of_finish ⟨fun hne => absurd hstatus hne, fun _ => hsubscribe, fun _ => hsubAck⟩ hs ?_
    show Held.mk _ p.subscribeParser.own.packet p.subAckParser.own.packet = _
    rw [hsubscribe, hsubAck]
    rfl
  | connAck =>
    have hconnect := h.connect (by simp [hstatus])
    have hsubscribe := h.subscribe (by simp [hstatus])
    have hsubAck := h.subAck (by simp [hstatus])
    rw [parse_connAck hstatus]
    refine .of_finish ⟨fun _ => hconnect, fun _ => hsubscribe, fun _ => hsubAck⟩ hs ?_
    show Held.mk p.connectParser.own.packet p.subscribeParser.own.packet
      p.subAckParser.own.packet = old
    rw [hconnect, hsubscribe, hsubAck]
  | publish =>
    have hconnect := h.connect (by simp [hstatus])
    have hsubscribe := h.subscribe (by simp [hstatus])
    have hsubAck := h.subAck (by simp [hstatus])
    rw [parse_publish hstatus]
    refine .of_finish ⟨fun _ => hconnect, fun _ => hsubscribe, fun _ => hsubAck⟩ hs ?_
    show Held.mk p.connectParser.own.packet p.subscribeParser.own.packet
      p.subAckParser.own.packet = old
    rw [hconnect, hsubscribe, hsubAck]
  | subscribe =>
    have hconnect := h.connect (by simp [hstatus])
    have hsubAck := h.subAck (by simp [hstatus])
    rw [parse_subscribe hstatus]
    refine .of_finish ⟨fun _ => hconnect, fun hne => absurd hstatus hne, fun _ => hsubAck⟩ hs ?_
    show Held.mk p.connectParser.own.packet _ p.subAckParser.own.packet = _
    rw [hconnect, hsubAck]
    rfl
  | subAck =>
    have hconnect := h.connect (by simp [hstatus])
    have hsubscribe := h.subscribe (by simp [hstatus])
    rw [parse_subAck hstatus]
    refine .of_finish ⟨fun _ => hconnect, fun _ => hsubscribe, fun hne => absurd hstatus hne⟩ hs ?_
    show Held.mk p.connectParser.own.packet p.subscribeParser.own.packet _ = _
    rw [hconnect, hsubscribe]
    rfl
  | ready => exact absurd hstatus hs

/-- **A frame leaves what was read of it, and nothing else.** -/
theorem Untouched.accepted {q : MQTTParser} {rest : List Call} (calls : List Call)
    (h : p.Untouched old) (hs : p.status ≠ .ready)
    (haccepted : outcome (machine sort) p calls = .accepted q rest) :
    ∃ packet, q.packet = some packet ∧ q.held = old.put packet.body := by
  induction calls generalizing p with
  | nil => cases haccepted
  | cons call calls ih =>
    have hleaves : Leaves old (p.parse sort call none) := h.parse hs call
    cases hret : (p.parse sort call none).ret with
    | indeterminate =>
      rw [outcome_indeterminate (by exact hret)] at haccepted
      obtain ⟨hnext, hready⟩ := hleaves.more hret
      exact ih hnext hready haccepted
    | det b =>
      cases b with
      | true =>
        rw [outcome_true (by exact hret)] at haccepted
        obtain ⟨rfl, -⟩ := Outcome.accepted.inj haccepted
        exact hleaves.done hret
      | false =>
        rw [outcome_false (by exact hret)] at haccepted
        cases haccepted

end

end MQTTParser

/-! ## §3 One frame -/

/-- A CONNACK body as it is written. -/
theorem ConnectAckParser.outcome_bytes {p : ConnectAckParser}
    (hs : p.status = .connectAcknowledgeFlag) {connack : ConnAckControlPacket}
    (hcode : ∀ value, connack.connectReturnCode = .unnamed value → value = 5) {calls : List Call}
    (hcalls : calls.map Call.byte = (PacketBody.connAck connack).bytes) :
    (outcome ConnectAckParser.machine p calls).map (·.packet) = .accepted connack [] := by
  have hbytes : (PacketBody.connAck connack).bytes =
      [connack.connectAcknowledgeFlag.byte, connack.connectReturnCode.byte] := rfl
  rw [hbytes] at hcalls
  obtain ⟨flags, rest, rfl, hflags, hrest⟩ := List.map_eq_cons_iff.mp hcalls
  obtain ⟨code, rest, rfl, hbyte, hnil⟩ := List.map_eq_cons_iff.mp hrest
  obtain rfl := List.map_eq_nil_iff.mp hnil
  obtain ⟨flag, returnCode⟩ := connack
  have hflag : flag.byte &&& 0xFE = 0 ∧
      (if flag.byte &&& 0x01 ≠ 0 then ConnectAcknowledgeFlags.sessionPresent else .none) =
        flag := by
    cases flag <;> decide
  have hread : ¬ returnCode.byte > 5 ∧ ConnectReturnCode.ofByte returnCode.byte = returnCode := by
    cases returnCode with
    | unnamed value =>
      obtain rfl := hcode value rfl
      decide
    | connectionAccepted | unacceptableProtocolVersion | identifierRejected | serverUnavailable
    | badUserNameOrPassword => decide
  -- the two calls
  have hfirst : p.parse flags.byte none = ⟨.indeterminate, none,
      ⟨.connectReturnCode, ⟨flag, p.packet.connectReturnCode⟩⟩⟩ := by
    unfold ConnectAckParser.parse
    simp only [hs]
    rw [hflags, if_neg (by simp [hflag.1]), hflag.2]
  have hsecond : ConnectAckParser.parse ⟨.connectReturnCode, ⟨flag, p.packet.connectReturnCode⟩⟩
      code.byte none = ⟨.det true, none, ⟨.ready, ⟨flag, returnCode⟩⟩⟩ := by
    unfold ConnectAckParser.parse
    simp only [hbyte, if_neg hread.1, hread.2]
  simp only [outcome, ConnectAckParser.machine, ParseResult.answer, hfirst, hsecond,
    Outcome.map_accepted]

/-- A SUBACK body as it is written, behind other SUBACK packets. -/
theorem subAckOutcome_after (packet : SubAckControlPacket) {suback : SubAckControlPacket}
    (herror : .error ∉ suback.qosLevels) :
    subAckOutcome packet (PacketBody.subAck suback).bytes =
      .accepted ⟨suback.packetIdentifier, packet.qosLevels ++ suback.qosLevels⟩ [] := by
  have halone := subAckOutcome_bytes suback
  rw [if_neg herror] at halone
  have hbytes : (PacketBody.subAck suback).bytes =
      msb suback.packetIdentifier :: lsb suback.packetIdentifier ::
        suback.qosLevels.map QoSLevel.byte := by
    simp [PacketBody.bytes, PacketBody.fields]
  rw [hbytes, subAckOutcome] at halone ⊢
  split at halone
  · rename_i hcodes
    rw [if_pos hcodes, join_msb_lsb]
    obtain ⟨hsame, -⟩ := Outcome.accepted.inj halone
    have hlevels : (suback.qosLevels.map QoSLevel.byte).map QoSLevel.ofBits = suback.qosLevels :=
      congrArg SubAckControlPacket.qosLevels hsame
    rw [hlevels]
  · cases halone

namespace PacketBody

/-- The packets that `serialize` writes in a way that can be read. -/
def Fit : PacketBody → Prop
  | .connect c => c.Carried ∧ (PacketBody.connect c).bytes.length < 2 ^ 28
  | .connAck a => ∀ value, a.connectReturnCode = .unnamed value → value = 5
  | .publish m => (m.topicName.validate none).1 = true ∧ m.topicName.name.length < 2 ^ 16 ∧
      m.payload ≠ [] ∧ (PacketBody.publish m).bytes.length < 2 ^ 28
  | .subscribe s => s.topicFilters ≠ [] ∧ (∀ f ∈ s.topicFilters, f.Carried) ∧
      (PacketBody.subscribe s).bytes.length < 2 ^ 28
  | .subAck s => s.qosLevels.length ≤ 125 ∧ .error ∉ s.qosLevels
  | .pingResp | .disconnect => True
  | .pingReq => False

/-- What comes out of a parser that holds `h`. A message has no packet
identifier with quality of service 0. -/
def readAfter (sort : TopicFilters → TopicFilters) (h : MQTTParser.Held) : PacketBody → PacketBody
  | .connect c => .connect (c.readAfter h.connect)
  | .publish m => .publish { m with packetIdentifier := 0 }
  | .subscribe s => .subscribe ⟨s.packetIdentifier,
      SubscribeParser.unique (sort (h.subscribe.topicFilters ++ s.topicFilters))⟩
  | .subAck s => .subAck ⟨s.packetIdentifier, h.subAck.qosLevels ++ s.qosLevels⟩
  | body => body

end PacketBody

/-- What comes out of a parser for one packet behind the other. -/
def readBack (sort : TopicFilters → TopicFilters) :
    Machine MQTTParser.Held PacketBody (Option PacketBody) :=
  fun h body => (some (body.readAfter sort h), h.put (body.readAfter sort h))

theorem PacketBody.Fit.length_lt {body : PacketBody} (h : body.Fit) :
    body.bytes.length < if body.IsSubAck then 128 else 2 ^ 28 := by
  cases body with
  | connect c => exact h.2
  | connAck a => exact show 2 < 2 ^ 28 by decide
  | publish m => exact h.2.2.2
  | subscribe s => exact h.2.2
  | subAck s =>
    rw [length_subAck, if_pos (by trivial)]
    have hcount := h.1
    omega
  | pingReq | pingResp | disconnect => exact show 0 < 2 ^ 28 by decide

/-- The fixed header of a packet as it is written. -/
theorem PacketBody.Fit.header {body : PacketBody} (h : body.Fit) {calls : List Call}
    (hcalls : calls.map Call.byte = body.frame) :
    ∃ header bodyCalls, fixedHeader calls = some (header, bodyCalls) ∧
      header.controlPacketType = body.controlPacketType ∧
      header.flags = body.firstByte &&& 0x0F ∧ bodyCalls.map Call.byte = body.bytes ∧
      bodyCalls.length = header.length.toNat := by
  have htype : .ofByte body.firstByte = body.controlPacketType := by
    cases body <;> simp only [firstByte, controlPacketType] <;> decide
  have hvalid : (FixedHeader.validate
      ⟨.ofByte body.firstByte, body.firstByte &&& 0x0F, 0⟩ none).1 = true := by
    cases body <;> simp only [firstByte] <;> decide
  have hheader := fixedHeader_of_frame hcalls h.length_lt hvalid
  rwa [htype] at hheader

namespace MQTTParser

variable {sort : TopicFilters → TopicFilters} {p : MQTTParser} {calls : List Call}

/-- A frame without a body is read. -/
theorem reads_bodyless {header : FixedHeader} {body : PacketBody}
    (hheader : fixedHeader calls = some (header, []))
    (hbody : bodyless header.controlPacketType = some body) :
    Reads sort p.reset calls ⟨header, body⟩ := by
  obtain ⟨hp, rfl, hreads⟩ :=
    @reads_iff_afterHeader sort calls [] ⟨header, body⟩ header hheader p
  refine (hreads (o := .accepted body []) (f := id) ?_).mpr ⟨body, rfl, rfl⟩
  rw [afterHeader, dispatch_bodyless hbody]
  rfl

/-- **The frame of a packet is read**, as the packet that comes out. -/
theorem reads_frame {body : PacketBody} (hfit : body.Fit)
    (hcalls : calls.map Call.byte = body.frame) :
    ∃ packet, Reads sort p.reset calls packet ∧
      packet.carried.body = body.readAfter sort p.held ∧
      p.held.put packet.body = p.held.put (body.readAfter sort p.held) := by
  obtain ⟨header, bodyCalls, hheader, htype, hflags, hbody, hlength⟩ := hfit.header hcalls
  cases body with
  | connect c =>
    obtain ⟨uuid, hreads⟩ : ∃ uuid, Reads sort p.reset calls
        ⟨header, .connect (c.readAfter p.held.connect)⟩ ↔ _ := reads_connect hheader hlength htype
    refine ⟨_, hreads.mpr ⟨_, ?_, rfl⟩, rfl, rfl⟩
    rw [hbody]
    exact connectOutcome_bytes p.held.connect uuid hfit.1
  | connAck a =>
    obtain ⟨hp, rfl, hreads⟩ :=
      @reads_iff_afterHeader sort calls bodyCalls ⟨header, .connAck a⟩ header hheader p
    have hafter := ConnectAckParser.outcome_bytes (p := p.connAckParser.reset) rfl hfit hbody
    refine ⟨⟨hp.header, .connAck a⟩, (hreads (o := .accepted a []) (f := .connAck) ?_).mpr
      ⟨a, rfl, rfl⟩, rfl, rfl⟩
    rw [afterHeader, dispatch_connack htype]
    exact (outcome_connAck sort rfl bodyCalls).trans
      (map_packet hafter fun q => some ⟨hp.header, .connAck q⟩)
  | publish m =>
    obtain ⟨hvalid, hname, hpayload, -⟩ := hfit
    have hqos : QoSLevel.ofBits ((header.flags &&& 0x06) >>> 1) = .atMostOnce := by
      rw [hflags]
      show QoSLevel.ofBits (((0x30 &&& 0x0F : UInt8) &&& 0x06) >>> 1) = .atMostOnce
      decide
    -- the identifier of an earlier message, if there was one
    let read : PublishControlPacket :=
      ⟨m.topicName, p.publishParser.own.packet.packetIdentifier, m.payload⟩
    refine ⟨⟨header, .publish read⟩, (reads_publish hheader hlength htype).mpr ⟨read, ?_, rfl⟩, ?_,
      rfl⟩
    · rw [hqos, hbody, publishOutcome_message hvalid hname, if_neg hpayload]
      rfl
    · unfold ControlPacket.carried
      dsimp only
      rw [hqos, if_neg (by decide)]
      rfl
  | subscribe s =>
    refine ⟨_, (reads_subscribe hheader hlength htype).mpr ⟨_, ?_, rfl⟩, rfl, rfl⟩
    rw [hbody]
    exact subscribeOutcome_bytes sort p.held.subscribe hfit.1 hfit.2.1
  | subAck s =>
    refine ⟨_, (reads_subAck hheader hlength htype).mpr ⟨_, ?_, rfl⟩, rfl, rfl⟩
    rw [hbody]
    exact subAckOutcome_after p.held.subAck hfit.2
  | pingResp =>
    obtain rfl : bodyCalls = [] := by simpa [PacketBody.bytes, PacketBody.fields] using hbody
    exact ⟨_, reads_bodyless hheader (by rw [htype]; rfl), rfl, rfl⟩
  | disconnect =>
    obtain rfl : bodyCalls = [] := by simpa [PacketBody.bytes, PacketBody.fields] using hbody
    exact ⟨_, reads_bodyless hheader (by rw [htype]; rfl), rfl, rfl⟩
  | pingReq => exact absurd hfit id

end MQTTParser

/-! ## §4 A stream -/

/-- What is heard of a call that is not undecided: the packet taken, as far as
it carries it. -/
def Delivery.heard (d : Delivery) : Option (Option PacketBody) :=
  match d.1 with
  | .indeterminate => none
  | .det _ => some (d.2.2.map fun packet => packet.carried.body)

namespace MQTTParser

/-- A parser between two packets, and what its body parsers hold. -/
structure Between (h : Held) (p : MQTTParser) : Prop where
  status : p.status = .start
  header : p.fixedHeaderParser = .reset
  held : p.held = h

theorem between_new : Between {} new := ⟨rfl, rfl, rfl⟩

section

variable {sort : TopicFilters → TopicFilters} {p : MQTTParser} {calls : List Call}

/-- As long as the calls are undecided nothing is taken. -/
theorem deliver_undecided {front : List Call}
    (h : ∀ a ∈ (machine sort).outputs p front, a.1 = .indeterminate) :
    (deliver sort).after p front = (machine sort).after p front ∧
      ∀ d ∈ (deliver sort).outputs p front, d.heard = none := by
  induction front generalizing p with
  | nil => exact ⟨rfl, by simp⟩
  | cons call front ih =>
    obtain ⟨hcall, hfront⟩ := List.forall_mem_cons.mp h
    have hret : (p.parse sort call none).ret = .indeterminate := hcall
    have hdeliver : deliver sort p call =
        ((.indeterminate, (p.parse sort call none).ec, none), (p.parse sort call none).parser) := by
      simp [deliver, hret]
    obtain ⟨hafter, houtputs⟩ := ih hfront
    rw [Machine.outputs_cons, Machine.after_cons, List.forall_mem_cons, hdeliver]
    exact ⟨hafter, rfl, houtputs⟩

/-- A frame that is read is taken with its last byte. -/
theorem deliver_reads {packet : ControlPacket} {h : Held} (hp : Between h p)
    (hread : Reads sort p.reset calls packet) :
    ∃ front last, calls = front ++ [last] ∧
      (∀ d ∈ (deliver sort).outputs p front, d.heard = none) ∧
      (deliver sort ((deliver sort).after p front) last).1.heard =
        some (some packet.carried.body) ∧
      Between (h.put packet.body) ((deliver sort).after p calls) := by
  obtain ⟨hs, hheader, rfl⟩ := hp
  have hreset : p.reset = p := by
    unfold reset
    rw [← hs, ← hheader]
  rw [hreset] at hread
  obtain ⟨q, haccepted, hpacket⟩ := Outcome.map_eq_accepted.mp (reads_iff_outcome.mp hread)
  obtain ⟨front, last, rfl, hfront, htrue, hq⟩ := outcome_eq_accepted_iff.mp haccepted
  have huntouched : Untouched p.held p := ⟨fun _ => rfl, fun _ => rfl, fun _ => rfl⟩
  obtain ⟨packet', hpacket', hheld⟩ := huntouched.accepted _ (by simp [hs]) haccepted
  obtain rfl : packet' = packet := Option.some.inj (hpacket'.symm.trans hpacket)
  obtain ⟨hafter, hsilent⟩ := deliver_undecided hfront
  -- the last call
  have hret : (((machine sort).after p front).parse sort last none).ret = .det true := htrue
  have hparser : (((machine sort).after p front).parse sort last none).parser = q := hq
  have hlast : ((deliver sort ((machine sort).after p front) last).1.heard =
        some (some packet'.carried.body)) ∧
      (deliver sort ((machine sort).after p front) last).2 = { q.reset with packet := none } := by
    simp [deliver, hret, hparser, consumePacket, Delivery.heard, hpacket]
  refine ⟨front, last, rfl, hsilent, by rw [hafter]; exact hlast.1, ?_⟩
  rw [Machine.after_append, hafter, Machine.after_cons, Machine.after_nil, hlast.2]
  exact ⟨rfl, rfl, hheld⟩

theorem byte_surjective : Function.Surjective Call.byte := fun byte => ⟨⟨byte, []⟩, rfl⟩

/-- **The parser reads packets one behind the other.** -/
theorem deliver_readBack (sort : TopicFilters → TopicFilters) :
    Framing.Reads (deliver sort) Delivery.heard Call.byte PacketBody.frame (readBack sort)
      PacketBody.Fit Between := by
  intro h p body calls hp hfit hcalls
  obtain ⟨packet, hread, hcarried, hput⟩ := @reads_frame sort p calls body hfit hcalls
  obtain ⟨front, last, hsplit, hsilent, hlast, hnext⟩ := deliver_reads hp hread
  rw [hp.held] at hcarried hput
  refine ⟨front, last, hsplit, hsilent, ?_, ?_⟩
  · rw [hlast, hcarried]
    rfl
  · rw [hput] at hnext
    exact hnext

end

end MQTTParser

/-- The packets are written one behind the other. -/
def Serializer.WritesAll (packets : List ControlPacket) (stream : Bytes) : Prop :=
  ∃ chunks, List.Forall₂ Serializer.Writes packets chunks ∧ stream = chunks.flatten

theorem Serializer.writesAll_iff {packets : List ControlPacket} {stream : Bytes}
    (h : ∀ packet ∈ packets, Serializable packet) :
    WritesAll packets stream ↔
      stream = (packets.map ControlPacket.body).flatMap PacketBody.frame := by
  have hchunks : ∀ chunks, List.Forall₂ Writes packets chunks ↔
      chunks = packets.map fun packet => packet.body.frame := by
    induction packets with
    | nil => simp
    | cons packet packets ih =>
      intro chunks
      obtain ⟨hpacket, hrest⟩ := List.forall_mem_cons.mp h
      rw [List.forall₂_cons_left_iff]
      simp only [writes_iff hpacket, ih hrest, List.map_cons]
      constructor
      · rintro ⟨_, _, rfl, rfl, rfl⟩
        rfl
      · rintro rfl
        exact ⟨_, _, rfl, rfl, rfl⟩
  unfold WritesAll
  simp only [hchunks]
  constructor
  · rintro ⟨_, rfl, rfl⟩
    rw [List.flatMap_map, List.flatMap]
  · rintro rfl
    exact ⟨_, rfl, by rw [List.flatMap_map, List.flatMap]⟩

/-- A packet of the class its header says, that `serialize` writes in a way that
can be read. -/
structure ControlPacket.Fit (packet : ControlPacket) : Prop where
  typed : packet.body.controlPacketType = packet.header.controlPacketType
  fit : packet.body.Fit

theorem ControlPacket.Fit.serializable {packet : ControlPacket} (h : packet.Fit) :
    Serializer.Serializable packet :=
  ⟨h.typed, fun hbody => by simpa [PacketBody.Fit, hbody] using h.fit⟩

theorem writesAll_fit {packets : List ControlPacket} (h : ∀ packet ∈ packets, packet.Fit)
    {stream : Bytes} (hstream : Serializer.WritesAll packets stream) :
    (∀ body ∈ packets.map ControlPacket.body, body.Fit) ∧
      stream = (packets.map ControlPacket.body).flatMap PacketBody.frame := by
  refine ⟨List.forall_mem_map.mpr fun packet hpacket => (h packet hpacket).fit, ?_⟩
  exact (Serializer.writesAll_iff fun packet hpacket => (h packet hpacket).serializable).mp hstream

/-- Two subscriptions and a message, as a broker answers them. -/
def answers : List ControlPacket :=
  [⟨{ controlPacketType := .connack }, .connAck {}⟩,
    ⟨{ controlPacketType := .suback }, .subAck ⟨1, [.atMostOnce]⟩⟩,
    ⟨{ controlPacketType := .publish }, .publish ⟨⟨[0x66]⟩, 0, [0x78]⟩⟩,
    ⟨{ controlPacketType := .suback }, .subAck ⟨2, [.exactlyOnce]⟩⟩,
    ⟨{ controlPacketType := .pingresp }, .pingResp⟩]

theorem answers_fit : ∀ packet ∈ answers, packet.Fit := by
  simp only [answers, List.forall_mem_cons]
  refine ⟨⟨rfl, ?_⟩, ⟨rfl, ?_⟩, ⟨rfl, ?_⟩, ⟨rfl, ?_⟩, ⟨rfl, trivial⟩, by simp⟩
  · simp [PacketBody.Fit]
  · simp [PacketBody.Fit]
  · exact ⟨by decide, by decide, by decide, by decide⟩
  · simp [PacketBody.Fit]

open SendQueue

/-- What the socket is given for packets that can be read. -/
theorem frames_fit {packets : List ControlPacket} (h : ∀ packet ∈ packets, packet.Fit) :
    (∀ packet ∈ packets, packet.Written) ∧ Serializer.WritesAll packets (frames packets) := by
  have hwritten : ∀ packet ∈ packets, packet.Written :=
    fun packet hpacket => ControlPacket.written_of_serializable (h packet hpacket).serializable
  refine ⟨hwritten, (Serializer.writesAll_iff fun packet hpacket =>
    (h packet hpacket).serializable).mpr ?_⟩
  rw [frames, List.flatMap_map]
  refine List.flatMap_congr fun packet hpacket => ?_
  rw [if_pos (hwritten packet hpacket)]

end Acatl.Mqtt

/-
Acatl.Mqtt.BodyParsers — `ConnectParser`, `ConnectAckParser`,
`PublishParser`, `SubscribeParser` and `SubAckParser`.

All but `ConnectAckParser` count the bytes of the body down and keep their
result in a member, and do the same before and after the switch of `parse`:
a call without a byte left fails, and a result that is true too early is
turned into false. `BodyParser` has these two members beside those of the
single parser, and `BodyParser.parse` these two checks around the switch.

Two things come from outside: the string `UuidGenerator::generate()` would
return in a call of `ConnectParser::parse`, and `std::sort`, which
`SubscribeParser` applies to filters whose `operator<` is no order.
-/
import Acatl.Mqtt.FieldParsers
import Mathlib.Data.List.Destutter

namespace Acatl.Mqtt

/-! ## The common part -/

/-- A parser for the body of a packet: `_ret`, `_length` and its other
members. -/
structure BodyParser (α : Type) where
  ret : Tribool := .indeterminate
  length : Nat
  own : α

namespace BodyParser

variable {α : Type}

/-- `parse`, around the switch over the status. The switch leaves the result
in `_ret`; `overlong` is what the last check of `SubscribeParser` does more
than that of the others. -/
def parse (switch : BodyParser α → UInt8 → ErrorCode → ErrorCode × BodyParser α)
    (overlong : BodyParser α → BodyParser α) (p : BodyParser α) (byte : UInt8) (ec : ErrorCode) :
    ParseResult (BodyParser α) :=
  if p.length = 0 then
    ⟨.det false, some .controlPacketLength, { p with ret := .det false }⟩
  else
    let r := switch { p with length := p.length - 1 } byte ec
    if r.2.ret.isTrue ∧ r.2.length ≠ 0 then
      ⟨.det false, some .controlPacketLength, { overlong r.2 with ret := .det false }⟩
    else
      ⟨r.2.ret, r.1, r.2⟩

end BodyParser

/-! ## ConnectParser -/

/-- `ConnectParser::Status`. -/
inductive ConnectParser.Status where
  | protocolName
  | protocolLevel
  | connectFlags
  | keepAliveMsb
  | keepAliveLsb
  | clientId
  | willTopic
  | willMessage
  | username
  | password
  | ready
  deriving DecidableEq

/-- The members of `ConnectParser` beside `_ret` and `_length`. -/
structure ConnectMembers where
  status : ConnectParser.Status := .protocolName
  packet : ConnectControlPacket := {}
  stringParser : StringParser := {}

abbrev ConnectParser := BodyParser ConnectMembers

namespace ConnectParser

/-- `ConnectParser::ConnectParser`. -/
def new (length : Nat) : ConnectParser := { length := length, own := {} }

/-- `ConnectParser::reset`. -/
def reset (p : ConnectParser) (length : Nat) : ConnectParser :=
  { ret := .indeterminate
    length := length
    own := { p.own with status := .protocolName, stringParser := .reset } }

/-- `"MQTT"`. -/
def protocolName : Bytes := [0x4D, 0x51, 0x54, 0x54]

/-- `_status = Status::Ready; _ret.set(false);`, with the error code as it is. -/
def fail (p : ConnectParser) (ec : ErrorCode) : ErrorCode × ConnectParser :=
  (ec, { p with ret := .det false, own.status := .ready })

/-- What each status that reads a string does with a byte: `done` is the
branch for a string that is complete. -/
def readString (p : ConnectParser) (byte : UInt8) (ec : ErrorCode)
    (done : ConnectParser → Bytes → ErrorCode → ErrorCode × ConnectParser) :
    ErrorCode × ConnectParser :=
  let r := p.own.stringParser.parse byte ec
  let p := { p with own.stringParser := r.parser }
  if r.ret.isIndeterminate then
    (r.ec, p)
  else if p.ret.isFalse ∨ r.ec.isSome then
    fail p r.ec
  else
    done p r.parser.string r.ec

/-- The client identifier: the string read, or a generated one. The two
checks on an empty string end nothing, whatever they find. -/
def storeClientId (uuid : Bytes) (p : ConnectParser) (clientId : Bytes) (ec : ErrorCode) :
    ErrorCode × ConnectParser :=
  let p := { p with own.packet.clientId := clientId }
  if clientId = [] then
    let (ec, p) :=
      if ¬ p.own.packet.cleanSession then
        fail p (some .cleanSessionNotSetForEmptyClientId)
      else (ec, p)
    (ec, { p with own.packet.clientId := uuid })
  else
    (ec, p)

/-- What follows the client identifier. -/
def afterClientId (p : ConnectParser) : ConnectParser :=
  let p : ConnectParser :=
    if p.own.packet.willFlag then { p with own.status := .willTopic }
    else if p.own.packet.userNameFlag then { p with own.status := .username }
    else { p with ret := .det true, own.status := .ready }
  { p with own.stringParser := .reset }

/-- The branch for a complete client identifier. -/
def clientIdDone (uuid : Bytes) (p : ConnectParser) (clientId : Bytes) (ec : ErrorCode) :
    ErrorCode × ConnectParser :=
  let (ec, p) := storeClientId uuid p clientId ec
  (ec, afterClientId p)

/-- The flags byte. The bits of the will's quality of service are 3 and 4;
shifting bit 4 to the left takes it out of the byte. -/
def setFlags (packet : ConnectControlPacket) (byte : UInt8) : ConnectControlPacket :=
  { packet with
    cleanSession := byte &&& 0x02 ≠ 0
    willFlag := byte &&& 0x04 ≠ 0
    willQoSLevel :=
      .ofBits ((((byte &&& 0x10).toNat <<< 8) ||| (byte &&& 0x08).toNat).toUInt8 >>> 3)
    willRetain := byte &&& 0x20 ≠ 0
    passwordFlag := byte &&& 0x40 ≠ 0
    userNameFlag := byte &&& 0x80 ≠ 0 }

/-- The switch of `ConnectParser::parse`. -/
def switch (uuid : Bytes) (p : ConnectParser) (byte : UInt8) (ec : ErrorCode) :
    ErrorCode × ConnectParser :=
  match p.own.status with
  | .protocolName =>
    readString p byte ec fun p string ec =>
      if string ≠ protocolName then
        fail p (some .protocolNameViolation)
      else
        (ec, { p with own.status := .protocolLevel, own.stringParser := .reset })
  | .protocolLevel =>
    if byte ≠ 0x04 then
      fail p (some .unacceptableProtocolLevel)
    else
      (ec, { p with own.packet.protocolLevel := byte, own.status := .connectFlags })
  | .connectFlags =>
    if byte &&& 0x01 ≠ 0 then
      -- reserved flag not set to 0
      fail p (some .connectFlagProtocolViolation)
    else
      (ec, { p with own.packet := setFlags p.own.packet byte, own.status := .keepAliveMsb })
  | .keepAliveMsb =>
    (ec, { p with own.packet.keepAlive := byte.toUInt16 <<< 8, own.status := .keepAliveLsb })
  | .keepAliveLsb =>
    (ec, { p with
      own.packet.keepAlive := p.own.packet.keepAlive ||| byte.toUInt16
      own.status := .clientId })
  | .clientId => readString p byte ec (clientIdDone uuid)
  | .willTopic =>
    readString p byte ec fun p string ec =>
      (ec, { p with
        own.packet.willTopic := string
        own.status := .willMessage
        own.stringParser := .reset })
  | .willMessage =>
    readString p byte ec fun p string ec =>
      let p : ConnectParser := { p with own.packet.willMessage := string }
      let p : ConnectParser :=
        if p.own.packet.userNameFlag then { p with own.status := .username }
        else { p with ret := .det true, own.status := .ready }
      (ec, { p with own.stringParser := .reset })
  | .username =>
    readString p byte ec fun p string ec =>
      (ec, { p with
        own.packet.userName := string
        own.status := .password
        own.stringParser := .reset })
  | .password =>
    readString p byte ec fun p string ec =>
      (ec, { p with
        ret := .det true
        own.packet.password := string
        own.status := .ready })
  | .ready => (some .connectProtocolViolation, p)

/-- `ConnectParser::parse`. -/
def parse (uuid : Bytes) (p : ConnectParser) (byte : UInt8) (ec : ErrorCode) :
    ParseResult ConnectParser :=
  BodyParser.parse (switch uuid) id p byte ec

end ConnectParser

/-! ## ConnectAckParser -/

/-- `ConnectAckParser::Status`. -/
inductive ConnectAckParser.Status where
  | connectAcknowledgeFlag
  | connectReturnCode
  | ready
  deriving DecidableEq

/-- `ConnectAckParser`. -/
structure ConnectAckParser where
  status : ConnectAckParser.Status := .connectAcknowledgeFlag
  packet : ConnAckControlPacket := {}

namespace ConnectAckParser

/-- `ConnectAckParser::reset`. -/
def reset (p : ConnectAckParser) : ConnectAckParser :=
  { p with status := .connectAcknowledgeFlag }

/-- `ConnectAckParser::parse`. -/
def parse (p : ConnectAckParser) (byte : UInt8) (ec : ErrorCode) : ParseResult ConnectAckParser :=
  match p.status with
  | .connectAcknowledgeFlag =>
    if byte &&& 0xFE ≠ 0 then
      ⟨.det false, some .connectAcknowledgeFlagViolation, { p with status := .ready }⟩
    else
      ⟨.indeterminate, ec, { p with
        packet.connectAcknowledgeFlag := if byte &&& 0x01 ≠ 0 then .sessionPresent else .none
        status := .connectReturnCode }⟩
  | .connectReturnCode =>
    if byte > 5 then
      ⟨.det false, some .invalidConnectReturnCode, { p with status := .ready }⟩
    else
      ⟨.det true, ec, { p with packet.connectReturnCode := .ofByte byte, status := .ready }⟩
  | .ready => ⟨.det false, some .packetIdentifierLengthViolation, p⟩

end ConnectAckParser

/-! ## PublishParser -/

/-- `PublishParser::Status`. -/
inductive PublishParser.Status where
  | topicName
  | packetIdentifier
  | payload
  | ready
  deriving DecidableEq

/-- The members of `PublishParser` beside `_ret` and `_length`. -/
structure PublishMembers where
  status : PublishParser.Status := .topicName
  packet : PublishControlPacket := {}
  qos : QoSLevel
  stringParser : StringParser := {}
  identifierParser : PacketIdentifierParser := {}

abbrev PublishParser := BodyParser PublishMembers

namespace PublishParser

/-- `PublishParser::PublishParser`. -/
def new (qos : QoSLevel) (length : Nat) : PublishParser := { length := length, own := { qos := qos } }

/-- `PublishParser::reset`. -/
def reset (p : PublishParser) (qos : QoSLevel) (length : Nat) : PublishParser :=
  { ret := .indeterminate
    length := length
    own := { p.own with
      status := .topicName
      qos := qos
      stringParser := .reset
      identifierParser := p.own.identifierParser.reset
      packet.payload := [] } }

/-- `_status = Status::Ready; _ret.set(result);`, with the error code as it is. -/
def finish (p : PublishParser) (result : Bool) (ec : ErrorCode) : ErrorCode × PublishParser :=
  (ec, { p with ret := .det result, own.status := .ready })

/-- The switch of `PublishParser::parse`. -/
def switch (p : PublishParser) (byte : UInt8) (ec : ErrorCode) : ErrorCode × PublishParser :=
  match p.own.status with
  | .topicName =>
    let r := p.own.stringParser.parse byte ec
    let p := { p with own.stringParser := r.parser }
    if r.ret.isIndeterminate then
      (r.ec, p)
    else if p.ret.isFalse ∨ r.ec.isSome then
      finish p false r.ec
    else
      let p := { p with own.packet.topicName := ⟨r.parser.string⟩ }
      let valid := p.own.packet.topicName.validate r.ec
      if ¬ valid.1 then
        finish p false valid.2
      else
        let status := if p.own.qos.value > QoSLevel.atMostOnce.value then .packetIdentifier
          else .payload
        (valid.2, { p with own.status := status, own.stringParser := .reset })
  | .packetIdentifier =>
    let r := p.own.identifierParser.parse byte ec
    let p := { p with own.identifierParser := r.parser }
    if r.ret.isFalse ∨ r.ec.isSome then
      finish p false r.ec
    else if r.ret.isTrue then
      let p := { p with own.packet.packetIdentifier := r.parser.packetIdentifier }
      if p.length ≠ 0 then (r.ec, { p with own.status := .payload }) else finish p true r.ec
    else
      (r.ec, p)
  | .payload =>
    let p := { p with own.packet.payload := p.own.packet.payload ++ [byte] }
    if p.length = 0 then finish p true ec else (ec, p)
  | .ready => (some .publishProtocolViolation, p)

/-- `PublishParser::parse`. -/
def parse (p : PublishParser) (byte : UInt8) (ec : ErrorCode) : ParseResult PublishParser :=
  BodyParser.parse switch id p byte ec

end PublishParser

/-! ## SubscribeParser -/

/-- `SubscribeParser::Status`. -/
inductive SubscribeParser.Status where
  | packetIdentifier
  | topicFilter
  | qoS
  | ready
  deriving DecidableEq

/-- The members of `SubscribeParser` beside `_ret` and `_length`. -/
structure SubscribeMembers where
  status : SubscribeParser.Status := .packetIdentifier
  packet : SubscribeControlPacket := {}
  identifierParser : PacketIdentifierParser := {}
  stringParser : StringParser := {}
  topicFilter : TopicFilter := ⟨[], .atMostOnce⟩

abbrev SubscribeParser := BodyParser SubscribeMembers

namespace SubscribeParser

/-- `SubscribeParser::SubscribeParser`. -/
def new (length : Nat) : SubscribeParser := { length := length, own := {} }

/-- `SubscribeParser::reset`. -/
def reset (p : SubscribeParser) (length : Nat) : SubscribeParser :=
  { ret := .indeterminate
    length := length
    own := { p.own with
      status := .packetIdentifier
      identifierParser := p.own.identifierParser.reset
      stringParser := .reset } }

/-- `_status = Status::Ready; _ret.set(result);`, with the error code as it is. -/
def finish (p : SubscribeParser) (result : Bool) (ec : ErrorCode) : ErrorCode × SubscribeParser :=
  (ec, { p with ret := .det result, own.status := .ready })

/-- `std::unique` with `operator==`, and the `erase` of what it leaves over. -/
def unique (filters : TopicFilters) : TopicFilters := filters.destutter (· ≠ ·)

/-- The switch of `SubscribeParser::parse`. -/
def switch (sort : TopicFilters → TopicFilters) (p : SubscribeParser) (byte : UInt8)
    (ec : ErrorCode) : ErrorCode × SubscribeParser :=
  match p.own.status with
  | .packetIdentifier =>
    let r := p.own.identifierParser.parse byte ec
    let p := { p with own.identifierParser := r.parser }
    if r.ret.isFalse ∨ r.ec.isSome then
      finish p false r.ec
    else if r.ret.isTrue then
      (r.ec, { p with
        own.packet.packetIdentifier := r.parser.packetIdentifier
        own.status := .topicFilter
        own.stringParser := .reset })
    else
      (r.ec, p)
  | .topicFilter =>
    let r := p.own.stringParser.parse byte ec
    let p := { p with own.stringParser := r.parser }
    if r.ret.isFalse ∨ r.ec.isSome then
      finish p false r.ec
    else if r.ret.isTrue then
      (r.ec, { p with
        own.topicFilter := { filter := r.parser.string }
        own.status := .qoS
        own.stringParser := .reset })
    else
      (r.ec, p)
  | .qoS =>
    if byte &&& 0xFC ≠ 0 ∨ byte &&& 0x03 > 2 then
      -- bits from 2 to 7 have to be set to 0
      -- and the qos has to be in the range [0..2]
      finish p false (some .invalidQosLevel)
    else
      let p := { p with own.topicFilter.qos := .ofBits (byte &&& 0x03) }
      let valid := p.own.topicFilter.validate ec
      if ¬ valid.1 then
        finish p false (some .invalidTopicFilter)
      else
        let filters := p.own.packet.topicFilters ++ [p.own.topicFilter]
        if p.length > 0 then
          (valid.2, { p with own.packet.topicFilters := filters, own.status := .topicFilter })
        else
          -- remove duplicate topics
          finish { p with own.packet.topicFilters := unique (sort filters) }
            true valid.2
  | .ready => (some .subscribeProtocolViolation, p)

/-- `SubscribeParser::parse`. -/
def parse (sort : TopicFilters → TopicFilters) (p : SubscribeParser) (byte : UInt8)
    (ec : ErrorCode) : ParseResult SubscribeParser :=
  BodyParser.parse (switch sort) (fun p => { p with own.status := .ready }) p byte ec

end SubscribeParser

/-! ## SubAckParser -/

/-- `SubAckParser::Status`. -/
inductive SubAckParser.Status where
  | packetIdentifier
  | qoS
  | ready
  deriving DecidableEq

/-- The members of `SubAckParser` beside `_ret` and `_length`. -/
structure SubAckMembers where
  status : SubAckParser.Status := .packetIdentifier
  packet : SubAckControlPacket := {}
  identifierParser : PacketIdentifierParser := {}

abbrev SubAckParser := BodyParser SubAckMembers

namespace SubAckParser

/-- `SubAckParser::SubAckParser`. -/
def new (length : Nat) : SubAckParser := { length := length, own := {} }

/-- `SubAckParser::reset`. -/
def reset (p : SubAckParser) (length : Nat) : SubAckParser :=
  { ret := .indeterminate
    length := length
    own := { p.own with
      status := .packetIdentifier
      identifierParser := p.own.identifierParser.reset } }

/-- `_status = Status::Ready; _ret.set(result);`, with the error code as it is. -/
def finish (p : SubAckParser) (result : Bool) (ec : ErrorCode) : ErrorCode × SubAckParser :=
  (ec, { p with ret := .det result, own.status := .ready })

/-- The switch of `SubAckParser::parse`. -/
def switch (p : SubAckParser) (byte : UInt8) (ec : ErrorCode) : ErrorCode × SubAckParser :=
  match p.own.status with
  | .packetIdentifier =>
    let r := p.own.identifierParser.parse byte ec
    let p := { p with own.identifierParser := r.parser }
    if r.ret.isFalse ∨ r.ec.isSome then
      finish p false r.ec
    else if r.ret.isTrue then
      let p := { p with own.packet.packetIdentifier := r.parser.packetIdentifier }
      if p.length ≠ 0 then (r.ec, { p with own.status := .qoS }) else finish p true r.ec
    else
      (r.ec, p)
  | .qoS =>
    if byte > 0x02 then
      finish p false (some .invalidQosLevel)
    else
      let p := { p with own.packet.qosLevels := p.own.packet.qosLevels ++ [.ofBits byte] }
      if p.length = 0 then finish p true ec else (ec, p)
  | .ready => (some .publishProtocolViolation, p)

/-- `SubAckParser::parse`. -/
def parse (p : SubAckParser) (byte : UInt8) (ec : ErrorCode) : ParseResult SubAckParser :=
  BodyParser.parse switch id p byte ec

end SubAckParser

end Acatl.Mqtt

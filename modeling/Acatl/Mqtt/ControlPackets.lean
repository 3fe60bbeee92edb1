/-
Acatl.Mqtt.ControlPackets — `mqtt_control_packets.h`: the fixed header with
its validation, and the packets the parser produces.

Each packet class inherits `_header` from `ControlPacket`. Here the header
stands beside the other members (`ControlPacket.header` and `.body`), and the
dynamic type of the packet is the constructor of the body. The parsers fill
packets whose header nobody reads: `MQTTParser::parse` overwrites it.

A constructor leaves some members of scalar type uninitialised
(`_keepAlive`, `_packetIdentifier`). Their defaults below stand for whatever
the memory held; nothing reads them before they are written, the packet
identifier of a PUBLISH packet with quality of service 0 apart.
-/
import Acatl.Mqtt.Topic

namespace Acatl.Mqtt

/-- `FixedHeader`. -/
structure FixedHeader where
  controlPacketType : ControlPacketType := .none
  flags : UInt8 := 0
  length : UInt32 := 0
  deriving DecidableEq

/-- `FixedHeader::validate`. -/
def FixedHeader.validate (h : FixedHeader) (ec : ErrorCode) : Bool × ErrorCode :=
  match h.controlPacketType with
  | .connect | .connack | .puback | .pubrec | .pubcomp | .suback | .unsuback | .pingreq
  | .pingresp | .disconnect =>
    if h.flags ≠ 0 then (false, some .connectFlagProtocolViolation) else (true, ec)
  | .publish =>
    if h.flags &&& 0x06 = 0 ∧ h.flags &&& 0x08 ≠ 0 then
      -- DUP flag has to be 0 if QoS is AtMostOnce
      (false, some .dupFlagViolation)
    else if h.flags &&& 0x06 = 0x06 then
      (false, some .invalidQosLevel)
    else
      (true, ec)
  | .pubrel | .subscribe | .unsubscribe =>
    if h.flags ≠ 0x02 then (false, some .connectFlagProtocolViolation) else (true, ec)
  | .none | .reserved => (false, some .invalidControlPacketType)

/-- `ConnectControlPacket`. -/
structure ConnectControlPacket where
  protocolLevel : UInt8 := 0
  cleanSession : Bool := false
  willFlag : Bool := false
  willQoSLevel : QoSLevel := .atMostOnce
  willRetain : Bool := false
  passwordFlag : Bool := false
  userNameFlag : Bool := false
  keepAlive : UInt16 := 0
  clientId : Bytes := []
  willTopic : Bytes := []
  willMessage : Bytes := []
  userName : Bytes := []
  password : Bytes := []
  deriving DecidableEq

/-- `ConnAckControlPacket`. -/
structure ConnAckControlPacket where
  connectAcknowledgeFlag : ConnectAcknowledgeFlags := .none
  connectReturnCode : ConnectReturnCode := .connectionAccepted
  deriving DecidableEq

/-- `PublishControlPacket`. -/
structure PublishControlPacket where
  topicName : TopicName := ⟨[]⟩
  packetIdentifier : PacketIdentifier := 0
  payload : Bytes := []
  deriving DecidableEq

/-- `SubscribeControlPacket`. -/
structure SubscribeControlPacket where
  packetIdentifier : PacketIdentifier := 0
  topicFilters : TopicFilters := []
  deriving DecidableEq

/-- `SubAckControlPacket`. -/
structure SubAckControlPacket where
  packetIdentifier : PacketIdentifier := 0
  qosLevels : List QoSLevel := []
  deriving DecidableEq

/-- The dynamic type of a `ControlPacket`, with the members of that type. -/
inductive PacketBody where
  | connect (packet : ConnectControlPacket)
  | connAck (packet : ConnAckControlPacket)
  | publish (packet : PublishControlPacket)
  | subscribe (packet : SubscribeControlPacket)
  | subAck (packet : SubAckControlPacket)
  | pingReq
  | pingResp
  | disconnect
  deriving DecidableEq

/-- `ControlPacket`. -/
structure ControlPacket where
  header : FixedHeader
  body : PacketBody
  deriving DecidableEq

end Acatl.Mqtt

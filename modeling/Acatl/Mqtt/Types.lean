/-
Acatl.Mqtt.Types — the enumerations and small types every other module
uses: `mqtt_types.h`, `mqtt_error.h` and `acatl/tribool.h`.

Representation choices:

* a `std::string` or a byte buffer is the list of its bytes (`Bytes`);
* a `std::error_code` is `ErrorCode`, with `none` for a clear code. The
  code is an in-out parameter in the source, and some branches read it, so
  the functions of this development take it and return it;
* `acatl::Tribool` is an inductive type. Its C++ class keeps two flags, of
  which the state is meaningless while the other one is set.
-/
import Mathlib.Data.List.Basic

namespace Acatl.Mqtt

/-- A `std::string` or a byte buffer. -/
abbrev Bytes := List UInt8

/-! ## Errors -/

/-- `mqtt_error`. -/
inductive MqttError where
  | invalidControlPacketType
  | malformedRemainingLength
  | stringLengthViolation
  | duplicateConnectProtocolViolation
  | connectProtocolViolation
  | protocolNameViolation
  | unacceptableProtocolLevel
  | connectFlagProtocolViolation
  | willMessageProtocolViolation
  | authorizationProtocolViolation
  | controlPacketLength
  | malformedControlPacket
  | packetIdentifierLengthViolation
  | subscribeProtocolViolation
  | invalidTopicFilter
  | connectAcknowledgeFlagViolation
  | invalidConnectReturnCode
  | featureNotImplemented
  | controlPacketNotAllowed
  | dupFlagViolation
  | invalidQosLevel
  | publishProtocolViolation
  | notConnected
  | sessionInUse
  | sessionNotFound
  | noPacketSender
  | invalidWildcardInTopic
  | cleanSessionNotSetForEmptyClientId
  deriving DecidableEq, Repr

/-- `std::error_code`; `none` is the cleared code. -/
abbrev ErrorCode := Option MqttError

/-! ## Tribool -/

/-- `acatl::Tribool`. -/
inductive Tribool where
  | indeterminate
  | det (state : Bool)
  deriving DecidableEq, Repr

namespace Tribool

def isTrue (t : Tribool) : Bool := t == .det true
def isFalse (t : Tribool) : Bool := t == .det false
def isIndeterminate (t : Tribool) : Bool := t == .indeterminate

@[simp] theorem isTrue_indeterminate : isTrue .indeterminate = false := rfl
@[simp] theorem isTrue_det (b : Bool) : isTrue (.det b) = b := by cases b <;> rfl
@[simp] theorem isFalse_indeterminate : isFalse .indeterminate = false := rfl
@[simp] theorem isFalse_det (b : Bool) : isFalse (.det b) = !b := by cases b <;> rfl
@[simp] theorem isIndeterminate_indeterminate : isIndeterminate .indeterminate = true := rfl
@[simp] theorem isIndeterminate_det (b : Bool) : isIndeterminate (.det b) = false := by
  cases b <;> rfl

end Tribool

/-! ## Packet types, quality of service, return codes -/

/-- `ConnectionState`. -/
inductive ConnectionState where
  | keep
  | close
  deriving DecidableEq, Repr

/-- `ControlPacketType`: the upper four bits of the first header byte. -/
inductive ControlPacketType where
  | none
  | connect
  | connack
  | publish
  | puback
  | pubrec
  | pubrel
  | pubcomp
  | subscribe
  | suback
  | unsubscribe
  | unsuback
  | pingreq
  | pingresp
  | disconnect
  | reserved
  deriving DecidableEq, Repr

/-- `ControlPacketType(byte & 0xF0)`. -/
def ControlPacketType.ofByte (byte : UInt8) : ControlPacketType :=
  match (byte &&& 0xF0).toNat with
  | 0x10 => .connect
  | 0x20 => .connack
  | 0x30 => .publish
  | 0x40 => .puback
  | 0x50 => .pubrec
  | 0x60 => .pubrel
  | 0x70 => .pubcomp
  | 0x80 => .subscribe
  | 0x90 => .suback
  | 0xA0 => .unsubscribe
  | 0xB0 => .unsuback
  | 0xC0 => .pingreq
  | 0xD0 => .pingresp
  | 0xE0 => .disconnect
  | 0xF0 => .reserved
  | _ => .none

/-- `QoSLevel`. -/
inductive QoSLevel where
  | atMostOnce
  | atLeastOnce
  | exactlyOnce
  | error
  deriving DecidableEq, Repr

/-- The underlying value of a level, which `<` on levels compares. -/
def QoSLevel.value : QoSLevel → Nat
  | .atMostOnce => 0x00
  | .atLeastOnce => 0x01
  | .exactlyOnce => 0x02
  | .error => 0x80

/-- `QoSLevel(bits)`. Every conversion in the source has checked that the
bits are 0, 1 or 2. -/
def QoSLevel.ofBits (bits : UInt8) : QoSLevel :=
  match bits.toNat with
  | 0 => .atMostOnce
  | 1 => .atLeastOnce
  | 2 => .exactlyOnce
  | _ => .error

/-- `ConnectAcknowledgeFlags`. -/
inductive ConnectAcknowledgeFlags where
  | none
  | sessionPresent
  deriving DecidableEq, Repr

/-- `ConnectReturnCode`. The parser converts the bytes 0 to 5, and 5 has no
enumerator: C++ keeps such a value, and so does `unnamed`. -/
inductive ConnectReturnCode where
  | connectionAccepted
  | unacceptableProtocolVersion
  | identifierRejected
  | serverUnavailable
  | badUserNameOrPassword
  | unnamed (value : UInt8)
  deriving DecidableEq, Repr

/-- `ConnectReturnCode(byte)`. -/
def ConnectReturnCode.ofByte (byte : UInt8) : ConnectReturnCode :=
  match byte.toNat with
  | 0 => .connectionAccepted
  | 1 => .unacceptableProtocolVersion
  | 2 => .identifierRejected
  | 3 => .serverUnavailable
  | 4 => .badUserNameOrPassword
  | _ => .unnamed byte

/-- `PacketIdentifier`. -/
abbrev PacketIdentifier := UInt16

/-- The address of a `Session` object. -/
abbrev SessionId := Nat

/-- `Session::Ptr`; `none` is the null pointer. -/
abbrev SessionPtr := Option SessionId

end Acatl.Mqtt

/-
Acatl.Mqtt.Serializer — `mqtt_serializer.h`, with `RunlengthEncoder` and
`StringEncoder` of `mqtt_utils.h`: packets as bytes.

A `doSerialize` makes the caller's buffer large enough, as it computes the
size, and writes the packet through `buffer[length++]`. The buffer with
`length` and with the indices written is a `Writer`; the part of each function
behind the resize is a function of its own (`writeConnect` and so on).

§5 has the bytes that each of them emits, with the strings of the packet kept
apart (`PacketBody.fields`), and `serialize_emits` says that it does.
-/
import Acatl.Lib.Base128
import Acatl.Lib.Writer
import Acatl.Mqtt.ControlPackets
import Mathlib.Algebra.GroupWithZero.Nat

namespace Acatl.Mqtt

open Acatl.Lib

/-! ## §1 Enumerations as bytes -/

/-- `static_cast<uint8_t>` of a `ControlPacketType`. -/
def ControlPacketType.byte : ControlPacketType → UInt8
  | .none => 0
  | .connect => 0x10
  | .connack => 0x20
  | .publish => 0x30
  | .puback => 0x40
  | .pubrec => 0x50
  | .pubrel => 0x60
  | .pubcomp => 0x70
  | .subscribe => 0x80
  | .suback => 0x90
  | .unsubscribe => 0xA0
  | .unsuback => 0xB0
  | .pingreq => 0xC0
  | .pingresp => 0xD0
  | .disconnect => 0xE0
  | .reserved => 0xF0

/-- `static_cast<uint8_t>` of a `QoSLevel`. -/
def QoSLevel.byte (level : QoSLevel) : UInt8 := UInt8.ofNat level.value

/-- `static_cast<uint8_t>` of a `ConnectAcknowledgeFlags`. -/
def ConnectAcknowledgeFlags.byte : ConnectAcknowledgeFlags → UInt8
  | .none => 0
  | .sessionPresent => 1

/-- `static_cast<uint8_t>` of a `ConnectReturnCode`. -/
def ConnectReturnCode.byte : ConnectReturnCode → UInt8
  | .connectionAccepted => 0
  | .unacceptableProtocolVersion => 1
  | .identifierRejected => 2
  | .serverUnavailable => 3
  | .badUserNameOrPassword => 4
  | .unnamed value => value

/-- `(value & 0xFF00) >> 8`. -/
def msb (value : UInt16) : UInt8 := ((value &&& 0xFF00) >>> 8).toUInt8

/-- `value & 0x00FF`. -/
def lsb (value : UInt16) : UInt8 := (value &&& 0x00FF).toUInt8

/-! ## §2 RunlengthEncoder and StringEncoder -/

/-- The loop of `RunlengthEncoder::encode`, for so many rounds at most. -/
def RunlengthEncoder.encodeFrom : Nat → UInt32 → Writer UInt8 → Writer UInt8
  | 0, _, w => w
  | rounds + 1, value, w =>
    let encodedByte := (value % 128).toUInt8
    let value := value / 128
    -- if there are more data to encode, set the top bit of this byte
    let encodedByte := if value > 0 then encodedByte ||| 128 else encodedByte
    let w := w.put encodedByte
    if value > 0 then encodeFrom rounds value w else w

/-- `RunlengthEncoder::encode`. The value is 0 after five rounds
(`RunlengthEncoder.encodeFrom_rounds`). -/
def RunlengthEncoder.encode (value : UInt32) (w : Writer UInt8) : Writer UInt8 :=
  encodeFrom 5 value w

/-- `StringEncoder::encode`. -/
def StringEncoder.encode (value : Bytes) (w : Writer UInt8) : Writer UInt8 :=
  let length : UInt16 := UInt16.ofNat value.length
  let w := w.put (msb length)
  let w := w.put (lsb length)
  w.puts value

/-! ## §3 The packets -/

namespace Serializer

/-- `if(buffer.size() < size) buffer.resize(size);` -/
def grow (buffer : Bytes) (size : Nat) : Bytes :=
  if buffer.length < size then buffer ++ List.replicate (size - buffer.length) 0 else buffer

/-- A writer at the front of the buffer, after its resize. -/
def start (buffer : Bytes) (size : Nat) : Writer UInt8 := ⟨grow buffer size, 0, []⟩

/-- `dataLength` of a CONNECT packet. -/
def connectLength (connect : ConnectControlPacket) : UInt32 :=
  let dataLength : UInt32 := 10 + 2 + UInt32.ofNat connect.clientId.length
  let dataLength :=
    if connect.willFlag then
      dataLength + UInt32.ofNat (2 + connect.willTopic.length) +
        UInt32.ofNat (2 + connect.willMessage.length)
    else dataLength
  let dataLength :=
    if connect.userNameFlag then dataLength + UInt32.ofNat (2 + connect.userName.length)
    else dataLength
  if connect.passwordFlag then dataLength + UInt32.ofNat (2 + connect.password.length)
  else dataLength

/-- The connect flags, up to `length++`. -/
def storeFlags (connect : ConnectControlPacket) (w : Writer UInt8) : Writer UInt8 :=
  let w := w.store 0
  let w := if connect.userNameFlag then w.change (· ||| 0x80) else w
  let w := if connect.passwordFlag then w.change (· ||| 0x40) else w
  let w := if connect.willRetain then w.change (· ||| 0x20) else w
  let w := w.change (· ||| ((0x18 : UInt8) &&& (connect.willQoSLevel.byte <<< 3)))
  let w := if connect.willFlag then w.change (· ||| 0x04) else w
  if connect.cleanSession then w.change (· ||| 0x02) else w

def writeConnect (connect : ConnectControlPacket) (w : Writer UInt8) : Writer UInt8 :=
  let w := w.put ControlPacketType.connect.byte
  let w := RunlengthEncoder.encode (connectLength connect) w
  -- MQTT protocol name
  let w := w.put 0x00
  let w := w.put 0x04
  let w := w.put 0x4D
  let w := w.put 0x51
  let w := w.put 0x54
  let w := w.put 0x54
  -- Protocol level
  let w := w.put 0x04
  let w := (storeFlags connect w).advance
  let w := w.put (msb connect.keepAlive)
  let w := w.put (lsb connect.keepAlive)
  let w := StringEncoder.encode connect.clientId w
  let w :=
    if connect.willFlag then
      StringEncoder.encode connect.willMessage (StringEncoder.encode connect.willTopic w)
    else w
  let w := if connect.userNameFlag then StringEncoder.encode connect.userName w else w
  if connect.passwordFlag then StringEncoder.encode connect.password w else w

/-- `doSerialize(const ConnectControlPacket&)`. -/
def doSerializeConnect (connect : ConnectControlPacket) (buffer : Bytes) : Writer UInt8 :=
  writeConnect connect (start buffer (connectLength connect + 2).toNat)

/-- `buffer[0]` to `buffer[3]` are written in this order, and `length` is 4. -/
def writeConnAck (connack : ConnAckControlPacket) (w : Writer UInt8) : Writer UInt8 :=
  let w := w.put ControlPacketType.connack.byte
  let w := w.put 0x02
  let w := w.put connack.connectAcknowledgeFlag.byte
  w.put connack.connectReturnCode.byte

/-- `doSerialize(const ConnAckControlPacket&)`. -/
def doSerializeConnAck (connack : ConnAckControlPacket) (buffer : Bytes) : Writer UInt8 :=
  writeConnAck connack (start buffer 4)

/-- The two bytes of a DISCONNECT or PINGRESP packet. -/
def writeBodyless (type : ControlPacketType) (w : Writer UInt8) : Writer UInt8 :=
  let w := w.put type.byte
  w.put 0x00

/-- `doSerialize(const DisconnectControlPacket&)`. -/
def doSerializeDisconnect (buffer : Bytes) : Writer UInt8 :=
  writeBodyless .disconnect (start buffer 2)

/-- `doSerialize(const PingRespControlPacket&)`. -/
def doSerializePingResp (buffer : Bytes) : Writer UInt8 :=
  writeBodyless .pingresp (start buffer 2)

/-- `dataLength` of a PUBLISH packet. -/
def publishLength (publish : PublishControlPacket) : UInt32 :=
  2 + UInt32.ofNat (publish.topicName.name.length + publish.payload.length)

/-- The quality of service, the flags and the identifier are not written. The
`std::copy` of the payload writes behind `&buffer[length]`. -/
def writePublish (publish : PublishControlPacket) (w : Writer UInt8) : Writer UInt8 :=
  let w := w.put ControlPacketType.publish.byte
  let w := RunlengthEncoder.encode (publishLength publish) w
  let w := StringEncoder.encode publish.topicName.name w
  w.puts publish.payload

/-- `doSerialize(const PublishControlPacket&)`. -/
def doSerializePublish (publish : PublishControlPacket) (buffer : Bytes) : Writer UInt8 :=
  writePublish publish (start buffer (publishLength publish + 2).toNat)

/-- `dataLength` of a SUBSCRIBE packet. -/
def subscribeLength (subscribe : SubscribeControlPacket) : UInt32 :=
  subscribe.topicFilters.foldl
    (fun dataLength filter => dataLength + 3 + UInt32.ofNat filter.filter.length) 2

def writeFilter (filter : TopicFilter) (w : Writer UInt8) : Writer UInt8 :=
  let w := StringEncoder.encode filter.filter w
  w.put filter.qos.byte

def writeSubscribe (subscribe : SubscribeControlPacket) (w : Writer UInt8) : Writer UInt8 :=
  let w := ((w.store ControlPacketType.subscribe.byte).change (· ||| 0x02)).advance
  let w := RunlengthEncoder.encode (subscribeLength subscribe) w
  let w := w.put (msb subscribe.packetIdentifier)
  let w := w.put (lsb subscribe.packetIdentifier)
  subscribe.topicFilters.foldl (fun w filter => writeFilter filter w) w

/-- `doSerialize(const SubscribeControlPacket&)`. -/
def doSerializeSubscribe (subscribe : SubscribeControlPacket) (buffer : Bytes) : Writer UInt8 :=
  writeSubscribe subscribe (start buffer (subscribeLength subscribe + 2).toNat)

/-- The length is written as one byte, and not with `_lengthEncoder`. -/
def writeSubAck (suback : SubAckControlPacket) (w : Writer UInt8) : Writer UInt8 :=
  let w := w.put ControlPacketType.suback.byte
  let w := w.put (0x02 + UInt8.ofNat suback.qosLevels.length)
  let w := w.put (msb suback.packetIdentifier)
  let w := w.put (lsb suback.packetIdentifier)
  suback.qosLevels.foldl (fun w level => w.put level.byte) w

/-- `doSerialize(const SubAckControlPacket&)`. -/
def doSerializeSubAck (suback : SubAckControlPacket) (buffer : Bytes) : Writer UInt8 :=
  writeSubAck suback (start buffer (suback.qosLevels.length + 2))

end Serializer

/-! ## §4 Serializer -/

/-- What `serialize` returns, the error code, and the buffer with `length`. -/
structure Serialized where
  ret : Bool
  ec : ErrorCode
  out : Writer UInt8

namespace Serializer

/-- `Serializer::serialize`. A packet of another class than its header says
gives a null pointer, which is dereferenced: `none`. -/
def serialize (packet : ControlPacket) (buffer : Bytes) (length : Nat) (ec : ErrorCode) :
    Option Serialized :=
  match packet.header.controlPacketType with
  | .connect =>
    match packet.body with
    | .connect connect => some ⟨true, ec, doSerializeConnect connect buffer⟩
    | _ => none
  | .connack =>
    match packet.body with
    | .connAck connack => some ⟨true, ec, doSerializeConnAck connack buffer⟩
    | _ => none
  | .subscribe =>
    match packet.body with
    | .subscribe subscribe => some ⟨true, ec, doSerializeSubscribe subscribe buffer⟩
    | _ => none
  | .suback =>
    match packet.body with
    | .subAck suback => some ⟨true, ec, doSerializeSubAck suback buffer⟩
    | _ => none
  | .pingresp =>
    match packet.body with
    | .pingResp => some ⟨true, ec, doSerializePingResp buffer⟩
    | _ => none
  | .disconnect =>
    match packet.body with
    | .disconnect => some ⟨true, ec, doSerializeDisconnect buffer⟩
    | _ => none
  | .publish =>
    match packet.body with
    | .publish publish => some ⟨true, ec, doSerializePublish publish buffer⟩
    | _ => none
  | .unsubscribe | .unsuback | .pingreq | .puback | .pubrec | .pubcomp | .pubrel =>
    some ⟨false, some .featureNotImplemented, ⟨buffer, length, []⟩⟩
  | .none | .reserved =>
    some ⟨false, some .invalidControlPacketType, ⟨buffer, length, []⟩⟩

end Serializer

/-! ## §5 The bytes of a packet -/

/-- A part of a body: plain bytes, or a string with its length before it. -/
inductive Field where
  | plain (bytes : Bytes)
  | string (value : Bytes)
  deriving DecidableEq

/-- The bytes of a string as `StringEncoder` writes it. -/
def stringBytes (value : Bytes) : Bytes :=
  msb (UInt16.ofNat value.length) :: lsb (UInt16.ofNat value.length) :: value

def Field.bytes : Field → Bytes
  | .plain bytes => bytes
  | .string value => stringBytes value

/-- The byte that `storeFlags` leaves. -/
def ConnectControlPacket.flags (connect : ConnectControlPacket) : UInt8 :=
  let flags : UInt8 := if connect.userNameFlag then 0x80 else 0
  let flags := if connect.passwordFlag then flags ||| 0x40 else flags
  let flags := if connect.willRetain then flags ||| 0x20 else flags
  let flags := flags ||| ((0x18 : UInt8) &&& (connect.willQoSLevel.byte <<< 3))
  let flags := if connect.willFlag then flags ||| 0x04 else flags
  if connect.cleanSession then flags ||| 0x02 else flags

namespace PacketBody

/-- The parts of the body, in the order they are written. -/
def fields : PacketBody → List Field
  | .connect c =>
    [.string [0x4D, 0x51, 0x54, 0x54],
      .plain [0x04, c.flags, msb c.keepAlive, lsb c.keepAlive],
      .string c.clientId] ++
    (if c.willFlag then [.string c.willTopic, .string c.willMessage] else []) ++
    (if c.userNameFlag then [.string c.userName] else []) ++
    (if c.passwordFlag then [.string c.password] else [])
  | .connAck c => [.plain [c.connectAcknowledgeFlag.byte, c.connectReturnCode.byte]]
  | .publish p => [.string p.topicName.name, .plain p.payload]
  | .subscribe s =>
    .plain [msb s.packetIdentifier, lsb s.packetIdentifier] ::
      s.topicFilters.flatMap fun filter => [.string filter.filter, .plain [filter.qos.byte]]
  | .subAck s =>
    [.plain (msb s.packetIdentifier :: lsb s.packetIdentifier :: s.qosLevels.map QoSLevel.byte)]
  | .pingReq | .pingResp | .disconnect => []

/-- The body. -/
def bytes (body : PacketBody) : Bytes := body.fields.flatMap Field.bytes

/-- The first byte of the frame. -/
def firstByte : PacketBody → UInt8
  | .connect _ => 0x10
  | .connAck _ => 0x20
  | .publish _ => 0x30
  | .subscribe _ => 0x82
  | .subAck _ => 0x90
  | .pingReq => 0xC0
  | .pingResp => 0xD0
  | .disconnect => 0xE0

/-- The remaining length, as it is written. -/
def lengthBytes : PacketBody → Bytes
  | .subAck s => [0x02 + UInt8.ofNat s.qosLevels.length]
  | body => Base128.encode 5 (body.bytes.length % 2 ^ 32)

/-- The whole frame. -/
def frame (body : PacketBody) : Bytes := body.firstByte :: (body.lengthBytes ++ body.bytes)

/-- The size that the buffer is given at least. -/
def bufferSize : PacketBody → Nat
  | .subAck s => s.qosLevels.length + 2
  | body => (body.bytes.length + 2) % 2 ^ 32

end PacketBody

theorem RunlengthEncoder.emits_encodeFrom (rounds : Nat) :
    ∀ value : UInt32,
      Writer.Emits (encodeFrom rounds value) (Base128.encode rounds value.toNat) := by
  induction rounds with
  | zero => exact fun _ => .id
  | succ rounds ih =>
    intro value
    have hvalue : (value / 128).toNat = value.toNat / 128 := UInt32.toNat_div value 128
    have hbyte : ((value % 128).toUInt8).toNat = value.toNat % 128 := by
      rw [UInt32.toNat_toUInt8, UInt32.toNat_mod]
      show value.toNat % 128 % 256 = _
      omega
    by_cases hmore : value / 128 > 0
    · have hlarge : 128 ≤ value.toNat := by
        have hpos : 0 < (value / 128).toNat := UInt32.lt_iff_toNat_lt.mp hmore
        omega
      have hput : (value % 128).toUInt8 ||| 128 = UInt8.ofNat (value.toNat % 128 + 128) := by
        rw [← UInt8.toNat_inj, Base128.toNat_group, UInt8.toNat_or, hbyte, Nat.or_comm]
        have h := Nat.two_pow_add_eq_or_of_lt (i := 7) (Nat.mod_lt value.toNat (by decide)) 1
        exact h.symm.trans (Nat.add_comm _ _)
      rw [Base128.encode_large hlarge, ← hput, ← hvalue]
      refine ((Writer.Emits.put _).comp (ih (value / 128))).congr (fun w => ?_) rfl
      simp only [encodeFrom, if_pos hmore]
    · have hsmall : value.toNat < 128 := by
        have hzero : ¬ 0 < (value / 128).toNat := fun h => hmore (UInt32.lt_iff_toNat_lt.mpr h)
        omega
      have hput : (value % 128).toUInt8 = UInt8.ofNat value.toNat := by
        rw [← UInt8.toNat_inj, hbyte, Base128.toNat_last hsmall, Nat.mod_eq_of_lt hsmall]
      rw [Base128.encode_small hsmall, ← hput]
      refine (Writer.Emits.put _).congr (fun w => ?_) rfl
      simp only [encodeFrom, if_neg hmore]

/-- More rounds write the same bytes. -/
theorem RunlengthEncoder.emits_encodeFrom_rounds {rounds : Nat} (h : 5 ≤ rounds) (value : UInt32) :
    Writer.Emits (encodeFrom rounds value) (Base128.encode 5 value.toNat) := by
  have hfits : value.toNat < 128 ^ 5 := Nat.lt_trans value.toNat_lt (by decide)
  rw [← Base128.encode_eq hfits h (by decide)]
  exact emits_encodeFrom rounds value

theorem RunlengthEncoder.emits_encode (value : UInt32) :
    Writer.Emits (encode value) (Base128.encode 5 value.toNat) :=
  emits_encodeFrom_rounds (Nat.le_refl 5) value

theorem StringEncoder.emits_encode (value : Bytes) :
    Writer.Emits (encode value) (stringBytes value) :=
  ((Writer.Emits.put _).comp (Writer.Emits.put _)).comp (Writer.Emits.puts value)

namespace Serializer

theorem stores_flags (connect : ConnectControlPacket) :
    Writer.Stores (storeFlags connect) connect.flags := by
  have h := (((((Writer.Stores.store (0 : UInt8)).changeIf connect.userNameFlag (· ||| 0x80)).changeIf
    connect.passwordFlag (· ||| 0x40)).changeIf connect.willRetain (· ||| 0x20)).change
    (· ||| ((0x18 : UInt8) &&& (connect.willQoSLevel.byte <<< 3)))).changeIf connect.willFlag
    (· ||| 0x04) |>.changeIf connect.cleanSession (· ||| 0x02)
  exact h

end Serializer

/-! ## §6 The lengths -/

@[simp] theorem Field.bytes_plain (bytes : Bytes) : (Field.plain bytes).bytes = bytes := rfl
@[simp] theorem Field.bytes_string (value : Bytes) :
    (Field.string value).bytes = stringBytes value := rfl

@[simp] theorem length_stringBytes (value : Bytes) :
    (stringBytes value).length = 2 + value.length := by
  rw [stringBytes, List.length_cons, List.length_cons]
  omega

theorem PacketBody.bytes_connect (c : ConnectControlPacket) :
    (PacketBody.connect c).bytes = [0, 4, 0x4D, 0x51, 0x54, 0x54] ++ ([0x04] ++ [c.flags]) ++
      ([msb c.keepAlive] ++ [lsb c.keepAlive]) ++ stringBytes c.clientId ++
      (if c.willFlag then stringBytes c.willTopic ++ stringBytes c.willMessage else []) ++
      (if c.userNameFlag then stringBytes c.userName else []) ++
      (if c.passwordFlag then stringBytes c.password else []) := by
  have hname : stringBytes [0x4D, 0x51, 0x54, 0x54] = [0, 4, 0x4D, 0x51, 0x54, 0x54] := by decide
  simp only [bytes, fields]
  cases c.willFlag <;> cases c.userNameFlag <;> cases c.passwordFlag <;> simp [hname]

theorem PacketBody.connect_length (c : ConnectControlPacket) :
    (PacketBody.connect c).bytes.length = 12 + c.clientId.length +
      (if c.willFlag then 2 + c.willTopic.length + (2 + c.willMessage.length) else 0) +
      (if c.userNameFlag then 2 + c.userName.length else 0) +
      (if c.passwordFlag then 2 + c.password.length else 0) := by
  rw [bytes_connect]
  simp only [List.length_append, length_stringBytes, apply_ite List.length, List.length_cons,
    List.length_nil]
  omega

theorem PacketBody.subscribe_length (s : SubscribeControlPacket) :
    (PacketBody.subscribe s).bytes.length =
      2 + (s.topicFilters.map fun filter => 3 + filter.filter.length).sum := by
  unfold bytes fields
  rw [List.flatMap_cons, List.length_append, Field.bytes_plain]
  congr 1
  induction s.topicFilters with
  | nil => rfl
  | cons filter filters ih =>
    rw [List.flatMap_cons, List.flatMap_append, List.length_append, ih, List.map_cons,
      List.sum_cons]
    simp
    omega

namespace Serializer

open Writer (Emits)

theorem connectLength_eq (connect : ConnectControlPacket) :
    connectLength connect = UInt32.ofNat (PacketBody.connect connect).bytes.length := by
  rw [PacketBody.connect_length]
  unfold connectLength
  cases connect.willFlag <;> cases connect.userNameFlag <;> cases connect.passwordFlag <;>
    simp [UInt32.ofNat_add, UInt32.add_assoc]

theorem publishLength_eq (publish : PublishControlPacket) :
    publishLength publish = UInt32.ofNat (PacketBody.publish publish).bytes.length := by
  simp [publishLength, PacketBody.bytes, PacketBody.fields, UInt32.ofNat_add, UInt32.add_assoc]

theorem subscribeLength_eq (subscribe : SubscribeControlPacket) :
    subscribeLength subscribe = UInt32.ofNat (PacketBody.subscribe subscribe).bytes.length := by
  rw [PacketBody.subscribe_length]
  unfold subscribeLength
  show _ = UInt32.ofNat (2 + _)
  rw [UInt32.ofNat_add]
  show _ = (2 : UInt32) + _
  generalize (2 : UInt32) = start
  induction subscribe.topicFilters generalizing start with
  | nil => simp
  | cons filter filters ih =>
    rw [List.foldl_cons, ih]
    simp [UInt32.ofNat_add, UInt32.add_assoc]

/-! ## §7 What is emitted -/

theorem frame_eq {body : PacketBody} {dataLength : UInt32}
    (hlength : dataLength = UInt32.ofNat body.bytes.length)
    (hbytes : body.lengthBytes = Base128.encode 5 (body.bytes.length % 2 ^ 32)) :
    body.frame = body.firstByte :: (Base128.encode 5 dataLength.toNat ++ body.bytes) := by
  rw [PacketBody.frame, hbytes, hlength, UInt32.toNat_ofNat']

theorem emits_connect (connect : ConnectControlPacket) :
    Emits (writeConnect connect) (PacketBody.connect connect).frame := by
  have hname : Emits (fun w : Writer UInt8 => (((((w.put 0x00).put 0x04).put 0x4D).put 0x51).put
      0x54).put 0x54) [0, 4, 0x4D, 0x51, 0x54, 0x54] :=
    ((((Emits.put _).comp (Emits.put _)).comp (Emits.put _)).comp (Emits.put _)).comp
      (Emits.put _) |>.comp (Emits.put _)
  have hflags := (Emits.put (0x04 : UInt8)).comp (stores_flags connect).advance
  have hkeepAlive := (Emits.put (msb connect.keepAlive)).comp (Emits.put (lsb connect.keepAlive))
  have hwill := ((StringEncoder.emits_encode connect.willTopic).comp
    (StringEncoder.emits_encode connect.willMessage)).when connect.willFlag
  have huser := (StringEncoder.emits_encode connect.userName).when connect.userNameFlag
  have hpassword := (StringEncoder.emits_encode connect.password).when connect.passwordFlag
  have hall := (((((((Emits.put ControlPacketType.connect.byte).comp
    (RunlengthEncoder.emits_encode (connectLength connect))).comp hname).comp hflags).comp
    hkeepAlive).comp (StringEncoder.emits_encode connect.clientId)).comp hwill).comp huser |>.comp
    hpassword
  refine hall.congr (fun w => rfl) ?_
  rw [frame_eq (connectLength_eq connect) rfl, PacketBody.bytes_connect]
  simp only [List.append_assoc, List.cons_append]
  rfl

theorem emits_connAck (connack : ConnAckControlPacket) :
    Emits (writeConnAck connack) (PacketBody.connAck connack).frame :=
  (((Emits.put _).comp (Emits.put _)).comp (Emits.put _)).comp (Emits.put _)

theorem emits_bodyless (type : ControlPacketType) :
    Emits (writeBodyless type) [type.byte, 0x00] :=
  (Emits.put _).comp (Emits.put _)

theorem emits_publish (publish : PublishControlPacket) :
    Emits (writePublish publish) (PacketBody.publish publish).frame := by
  have hall := (((Emits.put ControlPacketType.publish.byte).comp
    (RunlengthEncoder.emits_encode (publishLength publish))).comp
    (StringEncoder.emits_encode publish.topicName.name)).comp (Emits.puts publish.payload)
  refine hall.congr (fun w => rfl) ?_
  rw [frame_eq (publishLength_eq publish) rfl]
  simp [PacketBody.bytes, PacketBody.fields, PacketBody.firstByte, ControlPacketType.byte]

theorem emits_subscribe (subscribe : SubscribeControlPacket) :
    Emits (writeSubscribe subscribe) (PacketBody.subscribe subscribe).frame := by
  have hfilter : ∀ filter : TopicFilter,
      Emits (writeFilter filter) (stringBytes filter.filter ++ [filter.qos.byte]) :=
    fun filter => (StringEncoder.emits_encode filter.filter).comp (Emits.put filter.qos.byte)
  have hfirst := ((Writer.Stores.store ControlPacketType.subscribe.byte).change (· ||| 0x02)).advance
  have hall := (((hfirst.comp (RunlengthEncoder.emits_encode (subscribeLength subscribe))).comp
    (Emits.put (msb subscribe.packetIdentifier))).comp
    (Emits.put (lsb subscribe.packetIdentifier))).comp
    (Emits.forEach hfilter subscribe.topicFilters)
  refine hall.congr (fun w => rfl) ?_
  have hbyte : ControlPacketType.subscribe.byte ||| 0x02 = 0x82 := by decide
  rw [frame_eq (subscribeLength_eq subscribe) rfl, hbyte]
  simp [PacketBody.bytes, PacketBody.fields, PacketBody.firstByte, List.flatMap_assoc]

theorem emits_subAck (suback : SubAckControlPacket) :
    Emits (writeSubAck suback) (PacketBody.subAck suback).frame := by
  have hlevels := Emits.forEach (f := fun level : QoSLevel => Writer.put level.byte)
    (fun level => Emits.put level.byte) suback.qosLevels
  have hall := ((((Emits.put ControlPacketType.suback.byte).comp
    (Emits.put (0x02 + UInt8.ofNat suback.qosLevels.length))).comp
    (Emits.put (msb suback.packetIdentifier))).comp
    (Emits.put (lsb suback.packetIdentifier))).comp hlevels
  refine hall.congr (fun w => rfl) ?_
  simp [PacketBody.frame, PacketBody.lengthBytes, PacketBody.bytes, PacketBody.fields,
    PacketBody.firstByte, ControlPacketType.byte, List.map_eq_flatMap]

/-- The size that is computed in 32 bits. -/
theorem bufferSize_eq {body : PacketBody} {dataLength : UInt32}
    (hlength : dataLength = UInt32.ofNat body.bytes.length) :
    (dataLength + 2).toNat = (body.bytes.length + 2) % 2 ^ 32 := by
  rw [hlength, UInt32.toNat_add, UInt32.toNat_ofNat']
  show (body.bytes.length % 2 ^ 32 + 2) % 2 ^ 32 = _
  omega

/-- **What `serialize` writes when it returns true**: the frame, from the front
of the buffer that has been given its size. -/
theorem serialize_emits {packet : ControlPacket} {buffer : Bytes} {length : Nat} {ec : ErrorCode}
    {s : Serialized} (h : serialize packet buffer length ec = some s) (hret : s.ret = true) :
    ∃ f, Emits f packet.body.frame ∧ s.out = f (start buffer packet.body.bufferSize) := by
  obtain ⟨header, body⟩ := packet
  unfold serialize at h
  dsimp only at h ⊢
  cases htype : header.controlPacketType with
  | connect =>
    cases body <;> simp only [htype, Option.some.injEq, reduceCtorEq] at h
    rename_i connect
    rw [← h, doSerializeConnect, bufferSize_eq (connectLength_eq connect)]
    exact ⟨_, emits_connect connect, rfl⟩
  | connack =>
    cases body <;> simp only [htype, Option.some.injEq, reduceCtorEq] at h
    rename_i connack
    rw [← h]
    exact ⟨_, emits_connAck connack, rfl⟩
  | publish =>
    cases body <;> simp only [htype, Option.some.injEq, reduceCtorEq] at h
    rename_i publish
    rw [← h, doSerializePublish, bufferSize_eq (publishLength_eq publish)]
    exact ⟨_, emits_publish publish, rfl⟩
  | subscribe =>
    cases body <;> simp only [htype, Option.some.injEq, reduceCtorEq] at h
    rename_i subscribe
    rw [← h, doSerializeSubscribe, bufferSize_eq (subscribeLength_eq subscribe)]
    exact ⟨_, emits_subscribe subscribe, rfl⟩
  | suback =>
    cases body <;> simp only [htype, Option.some.injEq, reduceCtorEq] at h
    rename_i suback
    rw [← h]
    exact ⟨_, emits_subAck suback, rfl⟩
  | pingresp =>
    cases body <;> simp only [htype, Option.some.injEq, reduceCtorEq] at h
    rw [← h]
    exact ⟨_, emits_bodyless .pingresp, rfl⟩
  | disconnect =>
    cases body <;> simp only [htype, Option.some.injEq, reduceCtorEq] at h
    rw [← h]
    exact ⟨_, emits_bodyless .disconnect, rfl⟩
  | unsubscribe | unsuback | pingreq | puback | pubrec | pubcomp | pubrel | none | reserved =>
    simp only [htype, Option.some.injEq] at h
    rw [← h] at hret
    cases hret

end Serializer

end Acatl.Mqtt

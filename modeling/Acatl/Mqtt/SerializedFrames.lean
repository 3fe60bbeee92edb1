/-
Acatl.Mqtt.SerializedFrames — when the serializer stays inside its buffer, and
when what it writes is a well-formed frame.

Both are about the numbers of a frame. The size that the buffer gets allows
one byte for the remaining length, and the SUBACK packet's is computed without
its packet identifier; the remaining length itself has 28 bits, a string's
length 16, and the SUBACK packet's length is a single byte.

  `serialize_in_bounds_iff`     the writes are inside the buffer.
  `serialized_wellFormed_iff`   the frame is well formed.
-/
import Acatl.Mqtt.RemainingLength
import Mathlib.Data.List.Forall2

namespace Acatl.Mqtt

open Acatl.Lib

namespace Serializer

/-! ## §1 The size of the buffer -/

theorem length_grow (buffer : Bytes) (size : Nat) :
    (grow buffer size).length = max buffer.length size := by
  unfold grow
  split
  · rw [List.length_append, List.length_replicate]
    omega
  · omega

end Serializer

namespace PacketBody

theorem length_frame (body : PacketBody) :
    body.frame.length = 1 + body.lengthBytes.length + body.bytes.length := by
  rw [frame, List.length_cons, List.length_append]
  omega

theorem length_subAck (s : SubAckControlPacket) :
    (PacketBody.subAck s).bytes.length = s.qosLevels.length + 2 := by
  simp [bytes, fields]

/-- A frame whose length is encoded: the buffer gets room for one length byte. -/
theorem fits_encoded {n size : Nat} :
    1 + (Base128.encode 5 (n % 2 ^ 32)).length + n ≤ max size ((n + 2) % 2 ^ 32) ↔
      1 + (Base128.encode 5 (n % 2 ^ 32)).length + n ≤ size ∨ n ≤ 127 := by
  have hone : (Base128.encode 5 (n % 2 ^ 32)).length = 1 ↔ n % 2 ^ 32 < 128 :=
    Base128.length_encode_eq_one (k := 3)
  have hpos : 0 < (Base128.encode 5 (n % 2 ^ 32)).length :=
    List.length_pos_iff.mpr (Base128.encode_ne_nil 4 _)
  rw [le_max_iff]
  refine or_congr_right ⟨fun h => ?_, fun h => ?_⟩
  · have hsmall : n % 2 ^ 32 < 128 := hone.mp (by omega)
    omega
  · have hlength := hone.mpr (by omega)
    omega

/-- The SUBACK packet. -/
def IsSubAck : PacketBody → Prop
  | .subAck _ => True
  | _ => False

instance : DecidablePred IsSubAck := fun body => by
  cases body <;> unfold IsSubAck <;> infer_instance

theorem lengthBytes_encoded {body : PacketBody} (h : ¬ body.IsSubAck) :
    body.lengthBytes = Base128.encode 5 (body.bytes.length % 2 ^ 32) ∧
      body.bufferSize = (body.bytes.length + 2) % 2 ^ 32 := by
  cases body with
  | subAck s => exact absurd trivial h
  | connect | connAck | publish | subscribe | pingReq | pingResp | disconnect => exact ⟨rfl, rfl⟩

/-- When the frame fits into a buffer of the initial size `size`. -/
theorem fits_iff (body : PacketBody) (size : Nat) :
    body.frame.length ≤ max size body.bufferSize ↔
      body.frame.length ≤ size ∨ ¬ body.IsSubAck ∧ body.bytes.length ≤ 127 := by
  rw [length_frame]
  by_cases hsuback : body.IsSubAck
  · cases body with
    | subAck s =>
      rw [length_subAck]
      show 1 + 1 + (s.qosLevels.length + 2) ≤ max size (s.qosLevels.length + 2) ↔ _
      simp only [hsuback, not_true_eq_false, false_and, or_false]
      show _ ↔ 1 + 1 + (s.qosLevels.length + 2) ≤ size
      omega
    | connect | connAck | publish | subscribe | pingReq | pingResp | disconnect =>
      exact absurd hsuback id
  · obtain ⟨hlength, hsize⟩ := lengthBytes_encoded hsuback
    rw [hlength, hsize, fits_encoded]
    simp only [hsuback, not_false_eq_true, true_and]

end PacketBody

namespace Serializer

/-- All indices written are inside the buffer, and so is the returned length. -/
def InsideBuffer (s : Serialized) : Prop :=
  s.out.InBounds ∧ s.out.position ≤ s.out.buffer.length

/-- **The serializer stays inside its buffer if and only if the buffer has room
for the frame from the start, or the frame is no SUBACK packet and has a
remaining length of one byte.** -/
theorem serialize_in_bounds_iff {packet : ControlPacket} {buffer : Bytes} {length : Nat}
    {ec : ErrorCode} {s : Serialized} (h : serialize packet buffer length ec = some s)
    (hret : s.ret = true) :
    InsideBuffer s ↔ packet.body.frame.length ≤ buffer.length ∨
      ¬ packet.body.IsSubAck ∧ packet.body.bytes.length ≤ 127 := by
  obtain ⟨f, hf, hout⟩ := serialize_emits h hret
  have hbounds : s.out.InBounds ↔
      packet.body.frame.length ≤ max buffer.length packet.body.bufferSize := by
    rw [hout, start, hf.inBounds_iff, length_grow]
  have hlength : s.out.position ≤ s.out.buffer.length ↔
      packet.body.frame.length ≤ max buffer.length packet.body.bufferSize := by
    rw [hout, start, hf.position, hf.size, length_grow, Nat.zero_add]
  rw [InsideBuffer, hbounds, hlength, and_self, PacketBody.fits_iff]

/-- A PINGRESP packet and an empty buffer. -/
theorem serialize_in_bounds_iff_pingResp :
    InsideBuffer ⟨true, none, doSerializePingResp []⟩ ↔
      PacketBody.pingResp.frame.length ≤ ([] : Bytes).length ∨
        ¬ PacketBody.pingResp.IsSubAck ∧ PacketBody.pingResp.bytes.length ≤ 127 :=
  serialize_in_bounds_iff
    (show serialize ⟨{ controlPacketType := .pingresp }, .pingResp⟩ [] 0 none =
      some ⟨true, none, doSerializePingResp []⟩ from rfl) rfl

/-- A SUBACK packet with one code takes five bytes, and an empty buffer is given
three. -/
theorem serialize_out_of_bounds :
    ¬ ∀ (packet : ControlPacket) (buffer : Bytes) (length : Nat) (ec : ErrorCode)
      (s : Serialized), serialize packet buffer length ec = some s → s.ret = true →
      InsideBuffer s := by
  intro h
  have hsuback := h ⟨{ controlPacketType := .suback }, .subAck ⟨1, [.atMostOnce]⟩⟩ [] 0 none _ rfl rfl
  revert hsuback
  unfold InsideBuffer
  decide

end Serializer

/-! ## §2 Well-formed frames -/

/-- The bytes of a field as they should be: a string stands behind its length. -/
def Field.WellFormed : Field → Bytes → Prop
  | .plain bytes, chunk => chunk = bytes
  | .string value, chunk => ∃ high low : UInt8, chunk = high :: low :: value ∧
      high.toNat <<< 8 ||| low.toNat = value.length

/-- `RunlengthDecoder` accepts the length that the bytes begin with, and it is
the number of bytes behind it. -/
def LengthFits (bytes : Bytes) (length : UInt32) (rest : Bytes) : Prop :=
  RunlengthDecoder.read {} bytes = some (length, rest) ∧ length.toNat = rest.length

/-- The frame of a packet: its first byte, its length and its fields. -/
def PacketBody.WellFormed (body : PacketBody) (frame : Bytes) : Prop :=
  ∃ bytes length rest chunks, frame = body.firstByte :: bytes ∧ LengthFits bytes length rest ∧
    List.Forall₂ Field.WellFormed body.fields chunks ∧ rest = chunks.flatten

/-- The numbers of the frame have enough bits: 28 for the remaining length, but
7 in a SUBACK packet, and 16 for the length of a string. -/
def PacketBody.Representable (body : PacketBody) : Prop :=
  body.bytes.length < (if body.IsSubAck then 128 else 2 ^ 28) ∧
    ∀ value, Field.string value ∈ body.fields → value.length < 2 ^ 16

theorem Field.WellFormed.length {field : Field} {chunk : Bytes} (h : field.WellFormed chunk) :
    chunk.length = field.bytes.length := by
  cases field with
  | plain bytes => exact congrArg List.length h
  | string value =>
    obtain ⟨high, low, rfl, -⟩ := h
    rw [Field.bytes_string, length_stringBytes, List.length_cons, List.length_cons]
    omega

/-- The field as it is written. -/
theorem Field.wellFormed_bytes (field : Field) :
    field.WellFormed field.bytes ↔ ∀ value, field = .string value → value.length < 2 ^ 16 := by
  cases field with
  | plain bytes => simp [Field.WellFormed]
  | string value =>
    rw [Field.bytes_string, stringBytes]
    constructor
    · intro hwritten value' hvalue
      obtain ⟨high, low, heq, hlength⟩ := hwritten
      obtain rfl := Field.string.inj hvalue
      obtain ⟨hhigh, heq⟩ := List.cons.inj heq
      obtain ⟨hlow, -⟩ := List.cons.inj heq
      rw [← hhigh, ← hlow, length_of_msb_lsb] at hlength
      omega
    · intro h
      have hfits := h value rfl
      exact ⟨_, _, rfl, by rw [length_of_msb_lsb]; omega⟩

/-- All fields as they are written. -/
theorem fields_wellFormed_iff (fields : List Field) :
    (∃ chunks, List.Forall₂ Field.WellFormed fields chunks ∧
      fields.flatMap Field.bytes = chunks.flatten) ↔
    ∀ value, Field.string value ∈ fields → value.length < 2 ^ 16 := by
  induction fields with
  | nil => exact iff_of_true ⟨[], .nil, rfl⟩ (by simp)
  | cons field fields ih =>
    constructor
    · intro ⟨chunks, hchunks, hbytes⟩ value hvalue
      obtain ⟨chunk, chunks, hfield, hfields, rfl⟩ := List.forall₂_cons_left_iff.mp hchunks
      rw [List.flatMap_cons, List.flatten_cons] at hbytes
      obtain ⟨rfl, hrest⟩ := List.append_inj hbytes hfield.length.symm
      rcases List.mem_cons.mp hvalue with hvalue | hvalue
      · exact (Field.wellFormed_bytes field).mp hfield value hvalue.symm
      · exact ih.mp ⟨chunks, hfields, hrest⟩ value hvalue
    · intro h
      obtain ⟨chunks, hfields, hrest⟩ := ih.mpr fun value hvalue =>
        h value (List.mem_cons_of_mem _ hvalue)
      have hfield := (Field.wellFormed_bytes field).mpr fun value hvalue =>
        h value (hvalue ▸ List.mem_cons_self)
      exact ⟨field.bytes :: chunks, .cons hfield hfields, by
        rw [List.flatMap_cons, List.flatten_cons, hrest]⟩

/-- A length that is encoded is right for the sizes that four bytes hold. -/
theorem lengthFits_encoded (bytes : Bytes) (length : UInt32) (rest : Bytes) :
    LengthFits (Base128.encode 5 (bytes.length % 2 ^ 32) ++ bytes) length rest ↔
      bytes.length < 2 ^ 28 ∧ rest = bytes ∧ length = UInt32.ofNat bytes.length := by
  unfold LengthFits
  rw [RunlengthDecoder.read_new]
  by_cases hlarge : 2 ^ 28 ≤ bytes.length % 2 ^ 32
  · rw [Base128.decode_encode_large hlarge (by decide)]
    simp only [Option.map_none, reduceCtorEq, false_and, false_iff]
    omega
  · have hsmall : bytes.length % 2 ^ 32 < 128 ^ (3 + 1) := Nat.not_le.mp hlarge
    rw [Base128.encode_eq hsmall (by decide) (by decide), Base128.decode_encode hsmall]
    simp only [Option.map_some, Option.some.injEq, Prod.mk.injEq]
    constructor
    · rintro ⟨⟨rfl, rfl⟩, hlength⟩
      rw [UInt32.toNat_ofNat'] at hlength
      rw [Nat.mod_eq_of_lt (by omega)]
      exact ⟨by omega, rfl, rfl⟩
    · rintro ⟨hfits, rfl, rfl⟩
      rw [UInt32.toNat_ofNat', Nat.mod_eq_of_lt (by omega)]
      exact ⟨⟨rfl, rfl⟩, rfl⟩

/-- A length that is written as one byte. -/
theorem lengthFits_raw (bytes : Bytes) (length : UInt32) (rest : Bytes) :
    LengthFits (UInt8.ofNat bytes.length :: bytes) length rest ↔
      bytes.length < 128 ∧ rest = bytes ∧ length = UInt32.ofNat bytes.length := by
  unfold LengthFits
  rw [RunlengthDecoder.read_new, ← and_assoc, ← Base128.decode_raw (k := 3) (by decide)]
  constructor
  · rintro ⟨hread, hlength⟩
    obtain ⟨⟨n, rest'⟩, hn, heq⟩ := Option.map_eq_some_iff.mp hread
    obtain ⟨rfl, rfl⟩ := Prod.mk.inj heq
    have hfits : n < 128 ^ 4 := Base128.decode_lt hn
    rw [UInt32.toNat_ofNat', Nat.mod_eq_of_lt (Nat.lt_trans hfits (by decide))] at hlength
    rw [show n = rest'.length from hlength] at hn ⊢
    obtain ⟨-, rfl⟩ := (Base128.decode_raw (k := 3) (by decide) bytes rest').mp hn
    exact ⟨hn, rfl⟩
  · rintro ⟨hrest, rfl⟩
    obtain ⟨hsmall, rfl⟩ := (Base128.decode_raw (k := 3) (by decide) bytes rest).mp hrest
    refine ⟨by rw [hrest]; rfl, ?_⟩
    rw [UInt32.toNat_ofNat', Nat.mod_eq_of_lt (by omega)]

/-- The length field of a frame is right exactly for the sizes that it holds. -/
theorem PacketBody.lengthFits_iff (body : PacketBody) (length : UInt32) (rest : Bytes) :
    LengthFits (body.lengthBytes ++ body.bytes) length rest ↔
      body.bytes.length < (if body.IsSubAck then 128 else 2 ^ 28) ∧ rest = body.bytes ∧
        length = UInt32.ofNat body.bytes.length := by
  by_cases hsuback : body.IsSubAck
  · cases body with
    | subAck s =>
      have hbyte : (PacketBody.subAck s).lengthBytes =
          [UInt8.ofNat (PacketBody.subAck s).bytes.length] := by
        rw [length_subAck, UInt8.ofNat_add, UInt8.add_comm]
        rfl
      rw [hbyte, if_pos hsuback]
      exact lengthFits_raw _ length rest
    | connect | connAck | publish | subscribe | pingReq | pingResp | disconnect =>
      exact absurd hsuback id
  · rw [(lengthBytes_encoded hsuback).1, if_neg hsuback]
    exact lengthFits_encoded body.bytes length rest

/-- The frame of a packet is well formed exactly if its numbers have enough
bits. -/
theorem PacketBody.frame_wellFormed_iff (body : PacketBody) :
    body.WellFormed body.frame ↔ body.Representable := by
  unfold Representable
  rw [← fields_wellFormed_iff]
  constructor
  · rintro ⟨_, length, rest, chunks, hframe, hfits, hchunks, hrest⟩
    obtain ⟨-, rfl⟩ := List.cons.inj hframe
    obtain ⟨hsize, rfl, -⟩ := (lengthFits_iff body length rest).mp hfits
    exact ⟨hsize, chunks, hchunks, hrest⟩
  · rintro ⟨hsize, chunks, hchunks, hrest⟩
    have hfits := (lengthFits_iff body _ _).mpr ⟨hsize, rfl, rfl⟩
    exact ⟨_, _, _, chunks, rfl, hfits, hchunks, hrest⟩

namespace Serializer

/-- **What `serialize` writes, with room for it, is a well-formed frame if and
only if the numbers of the frame have enough bits.** -/
theorem serialized_wellFormed_iff {packet : ControlPacket} {buffer : Bytes} {length : Nat}
    {ec : ErrorCode} {s : Serialized} (h : serialize packet buffer length ec = some s)
    (hret : s.ret = true) (hroom : s.out.InBounds) :
    packet.body.WellFormed (s.out.buffer.take s.out.position) ↔ packet.body.Representable := by
  obtain ⟨f, hf, hout⟩ := serialize_emits h hret
  have hframe : s.out.buffer.take s.out.position = packet.body.frame := by
    rw [hout] at hroom ⊢
    exact hf.taken hroom
  rw [hframe, PacketBody.frame_wellFormed_iff]

theorem serialized_wellFormed_iff_pingResp :
    PacketBody.pingResp.WellFormed [0xD0, 0] ↔ PacketBody.pingResp.Representable :=
  serialized_wellFormed_iff
    (show serialize ⟨{ controlPacketType := .pingresp }, .pingResp⟩ [] 0 none =
      some ⟨true, none, doSerializePingResp []⟩ from rfl) rfl (by decide)

/-- The codes of a SUBACK packet for 126 filters. -/
def manyCodes : SubAckControlPacket := ⟨1, List.replicate 126 .atMostOnce⟩

/-- The remaining length of that packet does not fit into its byte. -/
theorem serialized_malformed :
    ¬ ∀ (packet : ControlPacket) (buffer : Bytes) (length : Nat) (ec : ErrorCode)
      (s : Serialized), serialize packet buffer length ec = some s → s.ret = true →
      s.out.InBounds → packet.body.WellFormed (s.out.buffer.take s.out.position) := by
  intro h
  have hlength : (PacketBody.subAck manyCodes).bytes.length = 128 := by
    rw [PacketBody.length_subAck, manyCodes, List.length_replicate]
  have hemits := emits_subAck manyCodes
  have hroom : (doSerializeSubAck manyCodes (List.replicate 130 0)).InBounds := by
    rw [doSerializeSubAck, start, hemits.inBounds_iff, length_grow, PacketBody.length_frame,
      hlength, List.length_replicate]
    exact le_max_left 130 _
  have hmalformed := h ⟨{ controlPacketType := .suback }, .subAck manyCodes⟩
    (List.replicate 130 0) 0 none _ rfl rfl hroom
  dsimp only at hmalformed
  rw [doSerializeSubAck, start, hemits.taken hroom, PacketBody.frame_wellFormed_iff] at hmalformed
  have hfits := hmalformed.1
  rw [hlength] at hfits
  exact absurd hfits (Nat.lt_irrefl 128)

end Serializer

end Acatl.Mqtt

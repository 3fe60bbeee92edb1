/-
Acatl.Mqtt.FieldParsers — the parsers of single fields: `RunlengthDecoder`
(`mqtt_utils.h`), `StringParser`, `PacketIdentifierParser` and
`FixedHeaderParser`.

Every parser of the repository reads one byte for each call of `parse`, which
returns a `Tribool` and may set the error code; `ParseResult` is what such a
call returns and leaves behind.
-/
import Acatl.Mqtt.ControlPackets

namespace Acatl.Mqtt

/-- A call of `parse`: what it returns, the error code and the parser
afterwards. -/
structure ParseResult (P : Type) where
  ret : Tribool
  ec : ErrorCode
  parser : P

/-! ## RunlengthDecoder -/

/-- `RunlengthDecoder`. -/
structure RunlengthDecoder where
  multiplier : UInt32 := 1
  value : UInt32 := 0
  deriving DecidableEq

/-- `RunlengthDecoder::reset`, which leaves nothing of the old state. -/
def RunlengthDecoder.reset : RunlengthDecoder := {}

/-- `RunlengthDecoder::decode`: the two members of the tuple, the error code
and the decoder. -/
def RunlengthDecoder.decode (d : RunlengthDecoder) (encodedByte : UInt8) (ec : ErrorCode) :
    Int × UInt32 × ErrorCode × RunlengthDecoder :=
  let d := { d with value := d.value + (encodedByte &&& 127).toUInt32 * d.multiplier }
  if d.multiplier > 128 * 128 * 128 then
    (-1, 0, some .malformedRemainingLength, d)
  else
    let d := { d with multiplier := d.multiplier * 128 }
    if encodedByte &&& 128 ≠ 0 then (0, d.value, ec, d) else (1, d.value, ec, d)

/-! ## StringParser -/

/-- `StringParser::Status`. -/
inductive StringParser.Status where
  | start
  | readLength
  | stringdata
  | ready
  deriving DecidableEq

/-- `StringParser`. The constructor leaves `_length` uninitialised; `Start`
writes it. -/
structure StringParser where
  status : StringParser.Status := .start
  length : Nat := 0
  ss : Bytes := []
  deriving DecidableEq

namespace StringParser

/-- `StringParser::reset`, which leaves nothing of the old state. -/
def reset : StringParser := {}

/-- `StringParser::string`. -/
def string (p : StringParser) : Bytes := p.ss

/-- `StringParser::parse`. -/
def parse (p : StringParser) (byte : UInt8) (ec : ErrorCode) : ParseResult StringParser :=
  match p.status with
  | .start => ⟨.indeterminate, ec, { p with length := byte.toNat <<< 8, status := .readLength }⟩
  | .readLength =>
    let p := { p with length := p.length ||| byte.toNat }
    if p.length = 0 then
      ⟨.det true, ec, { p with status := .ready }⟩
    else
      ⟨.indeterminate, ec, { p with status := .stringdata }⟩
  | .stringdata =>
    let p := { p with ss := p.ss ++ [byte], length := p.length - 1 }
    if p.length = 0 then
      ⟨.det true, ec, { p with status := .ready }⟩
    else
      ⟨.indeterminate, ec, p⟩
  | .ready => ⟨.det false, some .stringLengthViolation, p⟩

end StringParser

/-! ## PacketIdentifierParser -/

/-- `PacketIdentifierParser::Status`. -/
inductive PacketIdentifierParser.Status where
  | start
  | readIdentifier
  | ready
  deriving DecidableEq

/-- `PacketIdentifierParser`. Nothing initialises `_packetIdentifier` before
`Start` writes it. -/
structure PacketIdentifierParser where
  status : PacketIdentifierParser.Status := .start
  packetIdentifier : PacketIdentifier := 0
  deriving DecidableEq

namespace PacketIdentifierParser

/-- `PacketIdentifierParser::reset`. -/
def reset (p : PacketIdentifierParser) : PacketIdentifierParser := { p with status := .start }

/-- `PacketIdentifierParser::parse`. -/
def parse (p : PacketIdentifierParser) (byte : UInt8) (ec : ErrorCode) :
    ParseResult PacketIdentifierParser :=
  match p.status with
  | .start =>
    ⟨.indeterminate, ec,
      { p with packetIdentifier := byte.toUInt16 <<< 8, status := .readIdentifier }⟩
  | .readIdentifier =>
    ⟨.det true, ec,
      { p with packetIdentifier := p.packetIdentifier ||| byte.toUInt16, status := .ready }⟩
  | .ready => ⟨.det false, some .packetIdentifierLengthViolation, p⟩

end PacketIdentifierParser

/-! ## FixedHeaderParser -/

/-- `FixedHeaderParser::Status`. -/
inductive FixedHeaderParser.Status where
  | start
  | readLength
  | ready
  deriving DecidableEq

/-- `FixedHeaderParser`. -/
structure FixedHeaderParser where
  status : FixedHeaderParser.Status := .start
  header : FixedHeader := {}
  decoder : RunlengthDecoder := {}
  deriving DecidableEq

namespace FixedHeaderParser

/-- `FixedHeaderParser::reset`, which leaves nothing of the old state. -/
def reset : FixedHeaderParser := {}

/-- `FixedHeaderParser::parse`. -/
def parse (p : FixedHeaderParser) (byte : UInt8) (ec : ErrorCode) : ParseResult FixedHeaderParser :=
  match p.status with
  | .start =>
    let header := { p.header with
      controlPacketType := .ofByte byte
      flags := byte &&& 0x0F }
    let valid := header.validate ec
    if valid.1 then
      ⟨.indeterminate, valid.2, { p with header := header, status := .readLength }⟩
    else
      ⟨.det false, valid.2, { p with header := {}, status := .ready }⟩
  | .readLength =>
    match p.decoder.decode byte ec with
    | (0, _, ec, decoder) => ⟨.indeterminate, ec, { p with decoder := decoder }⟩
    | (-1, _, ec, decoder) => ⟨.det false, ec, { p with decoder := decoder, status := .ready }⟩
    | (1, value, ec, decoder) =>
      ⟨.det true, ec, { p with
        decoder := decoder
        status := .ready
        header := { p.header with length := value } }⟩
    | (_, _, ec, decoder) => ⟨.indeterminate, ec, { p with decoder := decoder }⟩
  | .ready => ⟨.det true, ec, p⟩

end FixedHeaderParser

end Acatl.Mqtt

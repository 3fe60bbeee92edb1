/-
Acatl.Mqtt.BodyResults — the result of a `parse` call against the error code
it leaves, and the life of a body parser from `reset` on.

  §1  `Agrees`: the error code is set exactly when the call returns false.
      The field parsers always agree.
  §2  A parser whose switch is `Orderly` goes through four situations
      (`Sound`), agrees in all of them, and once it has failed fails always
      (`Stuck`). `PublishParser`, `SubscribeParser` and `SubAckParser` are
      orderly.
  §3  `ConnectParser` is not: an empty client identifier without the clean
      session flag fails and still goes on. Where exactly it disagrees.
-/
import Acatl.Mqtt.Parser

namespace Acatl.Mqtt

/-! ## §1 Agreement -/

/-- The error code is set exactly when the call returns false. -/
def ParseResult.Agrees {P : Type} (r : ParseResult P) : Prop := r.ret = .det false ↔ r.ec ≠ none

/-- The three ways a call that agrees can end. -/
theorem ParseResult.Agrees.cases {P : Type} {r : ParseResult P} (h : r.Agrees) :
    (r.ret = .indeterminate ∧ r.ec = none) ∨ (r.ret = .det false ∧ r.ec ≠ none) ∨
      (r.ret = .det true ∧ r.ec = none) := by
  unfold ParseResult.Agrees at h
  cases hret : r.ret with
  | indeterminate => simpa [hret] using h
  | det b => cases b <;> simpa [hret] using h

theorem StringParser.parse_agrees (p : StringParser) (byte : UInt8) :
    (p.parse byte none).Agrees := by
  unfold ParseResult.Agrees StringParser.parse
  cases p.status with
  | start => simp
  | readLength => by_cases h : p.length ||| byte.toNat = 0 <;> simp [h]
  | stringdata => by_cases h : p.length - 1 = 0 <;> simp [h]
  | ready => simp

theorem PacketIdentifierParser.parse_agrees (p : PacketIdentifierParser) (byte : UInt8) :
    (p.parse byte none).Agrees := by
  unfold ParseResult.Agrees PacketIdentifierParser.parse
  cases p.status <;> simp

theorem FixedHeader.validate_agrees (h : FixedHeader) :
    (h.validate none).1 = false ↔ (h.validate none).2 ≠ none := by
  unfold FixedHeader.validate
  cases h.controlPacketType <;> simp only [] <;> (try split) <;> (try split) <;> simp

theorem RunlengthDecoder.decode_cases (d : RunlengthDecoder) (byte : UInt8) (ec : ErrorCode) :
    ∃ value decoder,
      (d.multiplier > 128 * 128 * 128 ∧
        d.decode byte ec = (-1, value, some .malformedRemainingLength, decoder)) ∨
      (¬ d.multiplier > 128 * 128 * 128 ∧ d.decode byte ec = (0, value, ec, decoder)) ∨
      (¬ d.multiplier > 128 * 128 * 128 ∧ d.decode byte ec = (1, value, ec, decoder)) := by
  unfold RunlengthDecoder.decode
  by_cases hm : d.multiplier > 128 * 128 * 128
  · exact ⟨_, _, .inl ⟨hm, if_pos hm⟩⟩
  · by_cases hb : byte &&& 128 ≠ 0
    · exact ⟨_, _, .inr (.inl ⟨hm, (if_neg hm).trans (if_pos hb)⟩)⟩
    · exact ⟨_, _, .inr (.inr ⟨hm, (if_neg hm).trans (if_neg hb)⟩)⟩

theorem FixedHeaderParser.parse_agrees (p : FixedHeaderParser) (byte : UInt8) :
    (p.parse byte none).Agrees := by
  unfold ParseResult.Agrees FixedHeaderParser.parse
  cases p.status with
  | start =>
    have hv := FixedHeader.validate_agrees
      { p.header with controlPacketType := .ofByte byte, flags := byte &&& 0x0F }
    dsimp only
    split
    · rename_i hvalid
      simpa [hvalid] using hv
    · rename_i hvalid
      simpa [hvalid] using hv
  | readLength =>
    obtain ⟨value, decoder, ⟨-, h⟩ | ⟨-, h⟩ | ⟨-, h⟩⟩ := p.decoder.decode_cases byte none <;>
      simp [h]
  | ready => simp

/-! ## §2 Parsers that count their body down -/

namespace BodyParser

variable {α : Type}

/-- What the switches have in common that never overwrite a result. -/
structure Orderly (ready : α → Prop)
    (switch : BodyParser α → UInt8 → ErrorCode → ErrorCode × BodyParser α) : Prop where
  working : ∀ (p : BodyParser α) (byte : UInt8), p.ret = .indeterminate → ¬ ready p.own →
    ((switch p byte none).1 = none ∧ (switch p byte none).2.ret = .indeterminate ∧
      ¬ ready (switch p byte none).2.own) ∨
    ((switch p byte none).1 ≠ none ∧ (switch p byte none).2.ret = .det false ∧
      ready (switch p byte none).2.own) ∨
    ((switch p byte none).1 = none ∧ (switch p byte none).2.ret = .det true ∧
      ready (switch p byte none).2.own ∧ (switch p byte none).2.length = 0)
  finished : ∀ (p : BodyParser α) (byte : UInt8) (ec : ErrorCode), ready p.own →
    ∃ e, switch p byte ec = (some e, p)

/-- The situations a parser with an orderly switch can be in. -/
inductive Sound (ready : α → Prop) (p : BodyParser α) : Prop
  | working (hret : p.ret = .indeterminate) (hready : ¬ ready p.own)
  | accepted (hret : p.ret = .det true) (hready : ready p.own) (hlength : p.length = 0)
  | rejected (hret : p.ret = .det false) (hready : ready p.own)
  | exhausted (hret : p.ret = .det false) (hlength : p.length = 0)

/-- The two situations after a failure. -/
def Stuck (ready : α → Prop) (p : BodyParser α) : Prop :=
  p.ret = .det false ∧ (p.length = 0 ∨ ready p.own)

variable {ready : α → Prop}
  {switch : BodyParser α → UInt8 → ErrorCode → ErrorCode × BodyParser α}
  {overlong : BodyParser α → BodyParser α} {p : BodyParser α}

theorem Sound.stuck (h : p.Sound ready) (hret : p.ret = .det false) : p.Stuck ready := by
  cases h with
  | working hret' => simp [hret'] at hret
  | accepted hret' => simp [hret'] at hret
  | rejected _ hready => exact ⟨hret, .inr hready⟩
  | exhausted _ hlength => exact ⟨hret, .inl hlength⟩

/-- The result of a call is the member `_ret` it leaves. -/
theorem parse_ret (byte : UInt8) (ec : ErrorCode) :
    (parse switch overlong p byte ec).ret = (parse switch overlong p byte ec).parser.ret := by
  unfold parse
  split
  · rfl
  · dsimp only
    split <;> rfl

/-- **A parser with an orderly switch agrees in every situation, and stays in
one of them.** -/
theorem Sound.parse (h : p.Sound ready) (hs : Orderly ready switch) (byte : UInt8) :
    (BodyParser.parse switch overlong p byte none).Agrees ∧
      (BodyParser.parse switch overlong p byte none).parser.Sound ready := by
  unfold BodyParser.parse
  split
  · rename_i hlength
    exact ⟨by simp [ParseResult.Agrees], .exhausted rfl hlength⟩
  · rename_i hlength
    -- a call with a byte left
    have hafter : ∀ q : BodyParser α, q.own = p.own → q.ret = p.ret →
        let r := switch q byte none
        (r.1 = none ∧ r.2.ret = .indeterminate ∧ ¬ ready r.2.own) ∨
        (r.1 ≠ none ∧ r.2.ret = .det false ∧ ready r.2.own) ∨
        (r.1 = none ∧ r.2.ret = .det true ∧ ready r.2.own ∧ r.2.length = 0) := by
      intro q hown hret
      cases h with
      | working hret' hready => exact hs.working q byte (hret.trans hret') (by rwa [hown])
      | accepted _ _ hzero => exact absurd hzero hlength
      | exhausted _ hzero => exact absurd hzero hlength
      | rejected hret' hready =>
        obtain ⟨e, he⟩ := hs.finished q byte none (by rwa [hown])
        simp [he, hown, hret, hret', hready]
    dsimp only
    rcases hafter { p with length := p.length - 1 } rfl rfl with
      ⟨hec, hret, hready⟩ | ⟨hec, hret, hready⟩ | ⟨hec, hret, hready, hzero⟩
    · simp only [hret, Tribool.isTrue_indeterminate, Bool.false_eq_true, false_and, if_false]
      exact ⟨by simp [ParseResult.Agrees, hec], .working hret hready⟩
    · simp only [hret, Tribool.isTrue_det, Bool.false_eq_true, false_and, if_false]
      exact ⟨by simp [ParseResult.Agrees, hec], .rejected hret hready⟩
    · simp only [hret, hzero, ne_eq, not_true_eq_false, and_false, if_false]
      exact ⟨by simp [ParseResult.Agrees, hec], .accepted hret hready hzero⟩

/-- A parser that has failed fails again. -/
theorem Stuck.parse (h : p.Stuck ready) (hs : Orderly ready switch) (byte : UInt8)
    (ec : ErrorCode) :
    (BodyParser.parse switch overlong p byte ec).ret = .det false ∧
      (BodyParser.parse switch overlong p byte ec).parser.Stuck ready := by
  obtain ⟨hret, hstuck⟩ := h
  unfold BodyParser.parse
  split
  · rename_i hlength
    exact ⟨rfl, rfl, .inl hlength⟩
  · rename_i hlength
    have hready := hstuck.resolve_left hlength
    obtain ⟨e, he⟩ := hs.finished { p with length := p.length - 1 } byte ec hready
    rw [he]
    simp only [hret, Tribool.isTrue_det, Bool.false_eq_true, false_and, if_false]
    exact ⟨trivial, rfl, .inr hready⟩

end BodyParser

theorem TopicName.validate_agrees (t : TopicName) :
    ((t.validate none).1 = false ∧ (t.validate none).2 ≠ none) ∨
      t.validate none = (true, none) := by
  unfold TopicName.validate
  split <;> simp

/-- `_status == Status::Ready`. -/
def PublishMembers.IsReady (m : PublishMembers) : Prop := m.status = .ready
def SubscribeMembers.IsReady (m : SubscribeMembers) : Prop := m.status = .ready
def SubAckMembers.IsReady (m : SubAckMembers) : Prop := m.status = .ready

theorem PublishParser.orderly : BodyParser.Orderly PublishMembers.IsReady PublishParser.switch where
  working p byte hret hready := by
    unfold PublishParser.switch PublishMembers.IsReady
    cases hs : p.own.status with
    | topicName =>
      have hr := (p.own.stringParser.parse_agrees byte).cases
      dsimp only
      generalize p.own.stringParser.parse byte none = r at hr ⊢
      rcases hr with ⟨hr, hec⟩ | ⟨hr, hec⟩ | ⟨hr, hec⟩
      · simp [hr, hec, hret, hs]
      · simp [hr, Option.isSome_iff_ne_none, hec, finish]
      · rcases TopicName.validate_agrees ⟨r.parser.string⟩ with ⟨hv, hec'⟩ | hv
        · simp [hr, hec, hret, hv, hec', finish]
        · by_cases hq : p.own.qos.value > QoSLevel.atMostOnce.value <;>
            simp [hr, hec, hret, hv, hq]
    | packetIdentifier =>
      have hr := (p.own.identifierParser.parse_agrees byte).cases
      dsimp only
      generalize p.own.identifierParser.parse byte none = r at hr ⊢
      rcases hr with ⟨hr, hec⟩ | ⟨hr, hec⟩ | ⟨hr, hec⟩
      · simp [hr, hec, hret, hs]
      · simp [hr, hec, finish]
      · by_cases hlength : p.length = 0 <;> simp [hr, hec, hret, hlength, finish]
    | payload => by_cases hlength : p.length = 0 <;> simp [hret, hs, hlength, finish]
    | ready => exact absurd hs hready
  finished p byte ec hready := by
    unfold PublishParser.switch
    rw [show p.own.status = .ready from hready]
    exact ⟨_, rfl⟩

theorem SubscribeParser.orderly (sort : TopicFilters → TopicFilters) :
    BodyParser.Orderly SubscribeMembers.IsReady (SubscribeParser.switch sort) where
  working p byte hret hready := by
    unfold SubscribeParser.switch SubscribeMembers.IsReady
    cases hs : p.own.status with
    | packetIdentifier =>
      have hr := (p.own.identifierParser.parse_agrees byte).cases
      dsimp only
      generalize p.own.identifierParser.parse byte none = r at hr ⊢
      rcases hr with ⟨hr, hec⟩ | ⟨hr, hec⟩ | ⟨hr, hec⟩ <;> simp [hr, hec, hret, hs, finish]
    | topicFilter =>
      have hr := (p.own.stringParser.parse_agrees byte).cases
      dsimp only
      generalize p.own.stringParser.parse byte none = r at hr ⊢
      rcases hr with ⟨hr, hec⟩ | ⟨hr, hec⟩ | ⟨hr, hec⟩ <;> simp [hr, hec, hret, hs, finish]
    | qoS =>
      by_cases hbits : byte &&& 0xFC ≠ 0 ∨ byte &&& 0x03 > 2
      · simp only [if_pos hbits, finish]
        simp
      · simp only [if_neg hbits]
        generalize ({ p.own.topicFilter with qos := .ofBits (byte &&& 0x03) } : TopicFilter) = f
        by_cases hv : (f.validate none).1 = true
        · have hec : (f.validate none).2 = none :=
            (TopicFilter.validateFrom_ec f.filter 0 none).trans (if_pos hv)
          by_cases hlength : p.length = 0
          · simp [hv, hec, hlength, finish]
          · have hpos : p.length > 0 := Nat.pos_of_ne_zero hlength
            simp [hv, hec, hret, hpos]
        · simp [hv, finish]
    | ready => exact absurd hs hready
  finished p byte ec hready := by
    unfold SubscribeParser.switch
    rw [show p.own.status = .ready from hready]
    exact ⟨_, rfl⟩

theorem SubAckParser.orderly : BodyParser.Orderly SubAckMembers.IsReady SubAckParser.switch where
  working p byte hret hready := by
    unfold SubAckParser.switch SubAckMembers.IsReady
    cases hs : p.own.status with
    | packetIdentifier =>
      have hr := (p.own.identifierParser.parse_agrees byte).cases
      dsimp only
      generalize p.own.identifierParser.parse byte none = r at hr ⊢
      rcases hr with ⟨hr, hec⟩ | ⟨hr, hec⟩ | ⟨hr, hec⟩
      · simp [hr, hec, hret, hs]
      · simp [hr, hec, finish]
      · by_cases hlength : p.length = 0 <;> simp [hr, hec, hret, hlength, finish]
    | qoS =>
      by_cases hbyte : byte > 0x02
      · simp only [if_pos hbyte, finish]
        simp
      · simp only [if_neg hbyte]
        by_cases hlength : p.length = 0 <;> simp [hret, hs, hlength, finish]
    | ready => exact absurd hs hready
  finished p byte ec hready := by
    unfold SubAckParser.switch
    rw [show p.own.status = .ready from hready]
    exact ⟨_, rfl⟩

theorem PublishParser.parse_sound {p : PublishParser} (h : p.Sound PublishMembers.IsReady)
    (byte : UInt8) : (PublishParser.parse p byte none).Agrees ∧
      (PublishParser.parse p byte none).parser.Sound PublishMembers.IsReady :=
  BodyParser.Sound.parse h PublishParser.orderly byte

theorem PublishParser.parse_stuck {p : PublishParser} (h : p.Stuck PublishMembers.IsReady)
    (byte : UInt8) (ec : ErrorCode) : (PublishParser.parse p byte ec).ret = .det false ∧
      (PublishParser.parse p byte ec).parser.Stuck PublishMembers.IsReady :=
  BodyParser.Stuck.parse h PublishParser.orderly byte ec

theorem SubscribeParser.parse_sound (sort : TopicFilters → TopicFilters) {p : SubscribeParser}
    (h : p.Sound SubscribeMembers.IsReady) (byte : UInt8) :
    (SubscribeParser.parse sort p byte none).Agrees ∧
      (SubscribeParser.parse sort p byte none).parser.Sound SubscribeMembers.IsReady :=
  BodyParser.Sound.parse h (SubscribeParser.orderly sort) byte

theorem SubscribeParser.parse_stuck (sort : TopicFilters → TopicFilters) {p : SubscribeParser}
    (h : p.Stuck SubscribeMembers.IsReady) (byte : UInt8) (ec : ErrorCode) :
    (SubscribeParser.parse sort p byte ec).ret = .det false ∧
      (SubscribeParser.parse sort p byte ec).parser.Stuck SubscribeMembers.IsReady :=
  BodyParser.Stuck.parse h (SubscribeParser.orderly sort) byte ec

theorem SubAckParser.parse_sound {p : SubAckParser} (h : p.Sound SubAckMembers.IsReady)
    (byte : UInt8) : (SubAckParser.parse p byte none).Agrees ∧
      (SubAckParser.parse p byte none).parser.Sound SubAckMembers.IsReady :=
  BodyParser.Sound.parse h SubAckParser.orderly byte

theorem SubAckParser.parse_stuck {p : SubAckParser} (h : p.Stuck SubAckMembers.IsReady)
    (byte : UInt8) (ec : ErrorCode) : (SubAckParser.parse p byte ec).ret = .det false ∧
      (SubAckParser.parse p byte ec).parser.Stuck SubAckMembers.IsReady :=
  BodyParser.Stuck.parse h SubAckParser.orderly byte ec

/-! ## §3 ConnectParser -/

namespace ConnectParser

/-- A string parser that has not read anything of a string yet holds none, and
the one in use has not finished. -/
structure Clean (p : StringParser) : Prop where
  unfinished : p.status ≠ .ready
  empty : p.status ≠ .stringdata → p.ss = []

/-- The situations a `ConnectParser` can be in. -/
inductive Sound (p : ConnectParser) : Prop
  | working (hret : p.ret = .indeterminate) (hready : p.own.status ≠ .ready)
      (hclean : Clean p.own.stringParser)
  | accepted (hret : p.ret = .det true) (hready : p.own.status = .ready) (hlength : p.length = 0)
  | rejected (hret : p.ret = .det false) (hready : p.own.status = .ready)
  | exhausted (hret : p.ret = .det false) (hlength : p.length = 0)
  -- after an empty client identifier without the clean session flag
  | continuing (hret : p.ret = .det false)
      (hstatus : p.own.status = .willTopic ∨ p.own.status = .username)
      (hclean : Clean p.own.stringParser)

/-- The packet has failed, and a byte of a string that still belongs to it is
read as if it had not. -/
def SilentFailure (p : ConnectParser) : Prop :=
  p.ret = .det false ∧ p.length ≠ 0 ∧ (p.own.status = .willTopic ∨ p.own.status = .username)

/-- The byte completes an empty string: it is the second of a length 0. -/
def CompletesEmpty (sp : StringParser) (byte : UInt8) : Prop :=
  sp.status = .readLength ∧ sp.length = 0 ∧ byte = 0

/-- The byte completes an empty client identifier, without the clean session
flag and with no field to follow. -/
def EndsEmpty (p : ConnectParser) (byte : UInt8) : Prop :=
  p.own.status = .clientId ∧ CompletesEmpty p.own.stringParser byte ∧
    p.own.packet.cleanSession = false ∧ p.own.packet.willFlag = false ∧
    p.own.packet.userNameFlag = false

/-- The byte is the last of the packet and completes such an identifier. -/
def LateSuccess (p : ConnectParser) (byte : UInt8) : Prop := p.length = 1 ∧ EndsEmpty p byte

theorem Clean.reset : Clean .reset := ⟨by decide, fun _ => rfl⟩

/-- A byte of a string: more is to come, or the string is complete. -/
theorem Clean.parse {sp : StringParser} (h : Clean sp) (byte : UInt8) :
    (∃ sp', sp.parse byte none = ⟨.indeterminate, none, sp'⟩ ∧ Clean sp' ∧
      ¬ CompletesEmpty sp byte) ∨
    (∃ sp', sp.parse byte none = ⟨.det true, none, sp'⟩ ∧
      (sp'.string = [] ↔ CompletesEmpty sp byte)) := by
  unfold StringParser.parse CompletesEmpty
  cases hs : sp.status with
  | start => exact .inl ⟨_, rfl, ⟨by simp, fun _ => h.empty (by simp [hs])⟩, by simp⟩
  | readLength =>
    have hempty := h.empty (by simp [hs])
    by_cases hzero : sp.length ||| byte.toNat = 0
    · refine .inr ⟨_, by simp only [hzero, if_true]; rfl, ?_⟩
      obtain ⟨hlength, hbyte⟩ := Nat.or_eq_zero_iff.mp hzero
      have hbyte : byte = 0 := UInt8.toNat_inj.mp hbyte
      simp [StringParser.string, hempty, hlength, hbyte]
    · refine .inl ⟨_, by simp only [hzero, if_false]; rfl, ⟨by simp, by simp⟩, ?_⟩
      rintro ⟨-, hlength, hbyte⟩
      simp [hlength, hbyte] at hzero
  | stringdata =>
    by_cases hzero : sp.length - 1 = 0
    · exact .inr ⟨_, by simp only [hzero, if_true]; rfl, by simp [StringParser.string]⟩
    · exact .inl ⟨_, by simp only [hzero, if_false]; rfl, ⟨by simp, by simp⟩, by simp⟩
  | ready => exact absurd hs h.unfinished

/-- A byte in a status that reads a string. -/
theorem readString_cases {p : ConnectParser} (h : Clean p.own.stringParser) (byte : UInt8)
    (done : ConnectParser → Bytes → ErrorCode → ErrorCode × ConnectParser) :
    (∃ sp, Clean sp ∧ ¬ CompletesEmpty p.own.stringParser byte ∧
      readString p byte none done = (none, { p with own.stringParser := sp })) ∨
    (∃ sp : StringParser, (sp.string = [] ↔ CompletesEmpty p.own.stringParser byte) ∧
      readString p byte none done =
        if p.ret.isFalse then fail { p with own.stringParser := sp } none
        else done { p with own.stringParser := sp } sp.string none) := by
  unfold readString
  rcases h.parse byte with ⟨sp, hparse, hsp, hmore⟩ | ⟨sp, hparse, hsp⟩
  · exact .inl ⟨sp, hsp, hmore, by simp [hparse]⟩
  · exact .inr ⟨sp, hsp, by simp [hparse]⟩

end ConnectParser

namespace BodyParser

variable {α : Type} {switch : BodyParser α → UInt8 → ErrorCode → ErrorCode × BodyParser α}
  {overlong : BodyParser α → BodyParser α} {p q : BodyParser α} {byte : UInt8} {ec e : ErrorCode}

theorem parse_indeterminate (hlength : p.length ≠ 0)
    (h : switch { p with length := p.length - 1 } byte ec = (e, q)) (hret : q.ret = .indeterminate) :
    parse switch overlong p byte ec = ⟨.indeterminate, e, q⟩ := by
  simp [parse, hlength, h, hret]

theorem parse_false (hlength : p.length ≠ 0)
    (h : switch { p with length := p.length - 1 } byte ec = (e, q)) (hret : q.ret = .det false) :
    parse switch overlong p byte ec = ⟨.det false, e, q⟩ := by
  simp [parse, hlength, h, hret]

theorem parse_true (hlength : p.length ≠ 0)
    (h : switch { p with length := p.length - 1 } byte ec = (e, q)) (hret : q.ret = .det true) :
    parse switch overlong p byte ec =
      if q.length = 0 then ⟨.det true, e, q⟩
      else ⟨.det false, some .controlPacketLength, { overlong q with ret := .det false }⟩ := by
  by_cases hq : q.length = 0 <;> simp [parse, hlength, h, hret, hq]

end BodyParser

namespace ConnectParser

/-- What the switch can leave from the situation `working`. -/
inductive Worked (p : ConnectParser) (byte : UInt8) : ErrorCode × ConnectParser → Prop
  | working {q : ConnectParser} (hlate : ¬ EndsEmpty p byte) (hret : q.ret = .indeterminate)
      (hready : q.own.status ≠ .ready) (hclean : Clean q.own.stringParser) : Worked p byte (none, q)
  | rejected {q : ConnectParser} {e : MqttError} (hlate : ¬ EndsEmpty p byte)
      (hret : q.ret = .det false) (hready : q.own.status = .ready) : Worked p byte (some e, q)
  | accepted {q : ConnectParser} (hlate : ¬ EndsEmpty p byte) (hret : q.ret = .det true)
      (hready : q.own.status = .ready) : Worked p byte (none, q)
  | continuing {q : ConnectParser} {e : MqttError} (hlate : ¬ EndsEmpty p byte)
      (hret : q.ret = .det false) (hstatus : q.own.status = .willTopic ∨ q.own.status = .username)
      (hclean : Clean q.own.stringParser) : Worked p byte (some e, q)
  | late {q : ConnectParser} {e : MqttError} (hlate : EndsEmpty p byte) (hret : q.ret = .det true)
      (hready : q.own.status = .ready) (hlength : q.length = p.length) : Worked p byte (some e, q)

/-- A byte in a status that reads a string, from the situation `working`:
what is left to show is what a complete string does. -/
theorem worked_string {p : ConnectParser} (hret : p.ret = .indeterminate)
    (hready : p.own.status ≠ .ready) (hclean : Clean p.own.stringParser) (byte : UInt8)
    {done : ConnectParser → Bytes → ErrorCode → ErrorCode × ConnectParser}
    (hdone : ∀ sp : StringParser, (sp.string = [] ↔ CompletesEmpty p.own.stringParser byte) →
      Worked p byte (done { p with own.stringParser := sp } sp.string none)) :
    Worked p byte (readString p byte none done) := by
  rcases readString_cases hclean byte done with ⟨sp, hsp, hmore, h⟩ | ⟨sp, hsp, h⟩
  · rw [h]
    exact .working (fun hlate => hmore hlate.2.1) hret hready hsp
  · rw [h, if_neg (by simp [hret])]
    exact hdone sp hsp

/-- The status behind the client identifier, by the flags. -/
theorem afterClientId_cases (p : ConnectParser) :
    Clean (afterClientId p).own.stringParser ∧
    ((p.own.packet.willFlag = true ∧ (afterClientId p).ret = p.ret ∧
        (afterClientId p).own.status = .willTopic) ∨
      (p.own.packet.willFlag = false ∧ p.own.packet.userNameFlag = true ∧
        (afterClientId p).ret = p.ret ∧ (afterClientId p).own.status = .username) ∨
      (p.own.packet.willFlag = false ∧ p.own.packet.userNameFlag = false ∧
        (afterClientId p).ret = .det true ∧ (afterClientId p).own.status = .ready ∧
        (afterClientId p).length = p.length)) := by
  unfold afterClientId
  refine ⟨.reset, ?_⟩
  cases hwill : p.own.packet.willFlag with
  | true => simp
  | false => cases huser : p.own.packet.userNameFlag <;> simp

/-- The client identifier is stored, or what the generator gave for an empty
one; the parser has failed if that one comes without the clean session flag. -/
theorem storeClientId_eq (uuid : Bytes) (p : ConnectParser) (clientId : Bytes) (ec : ErrorCode) :
    storeClientId uuid p clientId ec =
      if clientId = [] ∧ p.own.packet.cleanSession = false then
        (some .cleanSessionNotSetForEmptyClientId,
          { p with ret := .det false, own.packet.clientId := uuid, own.status := .ready })
      else
        (ec, { p with own.packet.clientId := if clientId = [] then uuid else clientId }) := by
  unfold storeClientId
  by_cases hid : clientId = []
  · rcases Bool.eq_false_or_eq_true p.own.packet.cleanSession with hclean | hclean <;>
      simp [hid, hclean, fail]
  · simp [hid]

/-- The client identifier is accepted, unless it is empty and the clean
session flag is not set. -/
theorem storeClientId_cases (uuid : Bytes) (p : ConnectParser) (clientId : Bytes) :
    ∃ e q, storeClientId uuid p clientId none = (e, q) ∧
      q.own.packet.willFlag = p.own.packet.willFlag ∧
      q.own.packet.userNameFlag = p.own.packet.userNameFlag ∧ q.length = p.length ∧
      ((e = none ∧ q.ret = p.ret ∧ ¬ (clientId = [] ∧ p.own.packet.cleanSession = false)) ∨
        (e ≠ none ∧ q.ret = .det false ∧ clientId = [] ∧ p.own.packet.cleanSession = false)) := by
  rw [storeClientId_eq]
  by_cases hrefused : clientId = [] ∧ p.own.packet.cleanSession = false
  · rw [if_pos hrefused]
    exact ⟨_, _, rfl, rfl, rfl, rfl, .inr ⟨by simp, rfl, hrefused⟩⟩
  · rw [if_neg hrefused]
    exact ⟨_, _, rfl, rfl, rfl, rfl, .inl ⟨rfl, rfl, hrefused⟩⟩

theorem worked_clientId (uuid : Bytes) {p : ConnectParser} (hret : p.ret = .indeterminate)
    (hs : p.own.status = .clientId) {byte : UInt8} {sp : StringParser}
    (hsp : sp.string = [] ↔ CompletesEmpty p.own.stringParser byte) :
    Worked p byte (clientIdDone uuid { p with own.stringParser := sp } sp.string none) := by
  obtain ⟨e, q, hstore, hwill, huser, hlength, hcases⟩ :=
    storeClientId_cases uuid { p with own.stringParser := sp } sp.string
  obtain ⟨hclean, hnext⟩ := afterClientId_cases q
  rw [hwill, huser, hlength] at hnext
  unfold clientIdDone
  rw [hstore]
  rcases hcases with ⟨rfl, hq, hid⟩ | ⟨he, hq, hempty, hid⟩
  · have hlate : ¬ EndsEmpty p byte := fun h => hid ⟨hsp.mpr h.2.1, h.2.2.1⟩
    have hq : q.ret = .indeterminate := hq.trans hret
    rcases hnext with ⟨-, hr, hstatus⟩ | ⟨-, -, hr, hstatus⟩ | ⟨-, -, hr, hstatus, -⟩
    · exact .working hlate (hr.trans hq) (by simp [hstatus]) hclean
    · exact .working hlate (hr.trans hq) (by simp [hstatus]) hclean
    · exact .accepted hlate hr hstatus
  · obtain ⟨e, rfl⟩ := Option.ne_none_iff_exists'.mp he
    rcases hnext with ⟨hf, hr, hstatus⟩ | ⟨-, hf, hr, hstatus⟩ | ⟨hw, hu, hr, hstatus, hl⟩
    · exact .continuing (fun h => by simp [h.2.2.2.1] at hf) (hr.trans hq) (.inl hstatus) hclean
    · exact .continuing (fun h => by simp [h.2.2.2.2] at hf) (hr.trans hq) (.inr hstatus) hclean
    · exact .late ⟨hs, hsp.mp hempty, hid, hw, hu⟩ hr hstatus hl

/-- **The switch, from the situation `working`.** -/
theorem worked_switch (uuid : Bytes) {p : ConnectParser} (hret : p.ret = .indeterminate)
    (hready : p.own.status ≠ .ready) (hclean : Clean p.own.stringParser) (byte : UInt8) :
    Worked p byte (switch uuid p byte none) := by
  have hnot : p.own.status ≠ .clientId → ¬ EndsEmpty p byte := fun h hlate => h hlate.1
  unfold switch
  cases hs : p.own.status with
  | protocolName =>
    refine worked_string hret hready hclean byte fun sp hsp => ?_
    have hlate := hnot (by simp [hs])
    split
    · exact .rejected hlate rfl rfl
    · exact .working hlate hret (by simp) .reset
  | protocolLevel =>
    have hlate := hnot (by simp [hs])
    dsimp only
    split
    · exact .rejected hlate rfl rfl
    · exact .working hlate hret (by simp) hclean
  | connectFlags =>
    have hlate := hnot (by simp [hs])
    dsimp only
    split
    · exact .rejected hlate rfl rfl
    · exact .working hlate hret (by simp) hclean
  | keepAliveMsb => exact .working (hnot (by simp [hs])) hret (by simp) hclean
  | keepAliveLsb => exact .working (hnot (by simp [hs])) hret (by simp) hclean
  | clientId =>
    exact worked_string hret hready hclean byte fun sp hsp => worked_clientId uuid hret hs hsp
  | willTopic =>
    exact worked_string hret hready hclean byte fun sp hsp =>
      .working (hnot (by simp [hs])) hret (by simp) .reset
  | willMessage =>
    refine worked_string hret hready hclean byte fun sp hsp => ?_
    have hlate := hnot (by simp [hs])
    dsimp only
    split
    · exact .working hlate hret (by simp) .reset
    · exact .accepted hlate rfl rfl
  | username =>
    exact worked_string hret hready hclean byte fun sp hsp =>
      .working (hnot (by simp [hs])) hret (by simp) .reset
  | password =>
    exact worked_string hret hready hclean byte fun sp hsp =>
      .accepted (hnot (by simp [hs])) rfl rfl
  | ready => exact absurd hs hready

/-- **Where `ConnectParser` agrees.** From every situation a call leads to
one again, and its result fits its error code but in the two cases named. -/
theorem Sound.parse {p : ConnectParser} (h : Sound p) (uuid : Bytes) (byte : UInt8) :
    Sound (parse uuid p byte none).parser ∧
      ((parse uuid p byte none).Agrees ↔ ¬ SilentFailure p ∧ ¬ LateSuccess p byte) := by
  unfold ConnectParser.parse
  by_cases hlength : p.length = 0
  · have hparse : BodyParser.parse (switch uuid) id p byte none =
        ⟨.det false, some .controlPacketLength, { p with ret := .det false }⟩ := if_pos hlength
    rw [hparse]
    refine ⟨.exhausted rfl hlength, ?_⟩
    simp [ParseResult.Agrees, SilentFailure, LateSuccess, hlength]
  cases h with
  | accepted _ _ hzero => exact absurd hzero hlength
  | exhausted _ hzero => exact absurd hzero hlength
  | rejected hret hready =>
    have hswitch : switch uuid { p with length := p.length - 1 } byte none =
        (some .connectProtocolViolation, { p with length := p.length - 1 }) := by
      simp [switch, hready]
    rw [BodyParser.parse_false hlength hswitch hret]
    refine ⟨.rejected hret hready, ?_⟩
    simp [ParseResult.Agrees, SilentFailure, LateSuccess, EndsEmpty, hready]
  | continuing hret hstatus hclean =>
    have hsilent : SilentFailure p := ⟨hret, hlength, hstatus⟩
    obtain ⟨done, hswitch⟩ : ∃ done, switch uuid { p with length := p.length - 1 } byte none =
        readString { p with length := p.length - 1 } byte none done := by
      rcases hstatus with hs | hs
      · exact ⟨_, by simp only [switch, hs]; rfl⟩
      · exact ⟨_, by simp only [switch, hs]; rfl⟩
    have hq : Clean ({ p with length := p.length - 1 } : ConnectParser).own.stringParser := hclean
    rcases readString_cases hq byte done with ⟨sp, hsp, -, hread⟩ | ⟨sp, -, hread⟩
    · rw [BodyParser.parse_false hlength (hswitch.trans hread) hret]
      refine ⟨.continuing hret hstatus hsp, ?_⟩
      simp [ParseResult.Agrees, hsilent]
    · rw [if_pos (by simp [hret])] at hread
      rw [BodyParser.parse_false hlength (hswitch.trans hread) rfl]
      refine ⟨.rejected rfl rfl, ?_⟩
      simp [ParseResult.Agrees, hsilent]
  | working hret hready hclean =>
    have hsilent : ¬ SilentFailure p := fun h => absurd h.1 (by simp [hret])
    have hworked := worked_switch uuid (p := { p with length := p.length - 1 }) hret hready hclean byte
    generalize hswitch : switch uuid { p with length := p.length - 1 } byte none = r at hworked
    cases hworked with
    | working hlate hret' hready' hclean' =>
      rw [BodyParser.parse_indeterminate hlength hswitch hret']
      have hlate : ¬ EndsEmpty p byte := hlate
      refine ⟨.working hret' hready' hclean', ?_⟩
      simp [ParseResult.Agrees, hsilent, LateSuccess, hlate]
    | rejected hlate hret' hready' =>
      rw [BodyParser.parse_false hlength hswitch hret']
      have hlate : ¬ EndsEmpty p byte := hlate
      refine ⟨.rejected hret' hready', ?_⟩
      simp [ParseResult.Agrees, hsilent, LateSuccess, hlate]
    | continuing hlate hret' hstatus' hclean' =>
      rw [BodyParser.parse_false hlength hswitch hret']
      have hlate : ¬ EndsEmpty p byte := hlate
      refine ⟨.continuing hret' hstatus' hclean', ?_⟩
      simp [ParseResult.Agrees, hsilent, LateSuccess, hlate]
    | accepted hlate hret' hready' =>
      rw [BodyParser.parse_true hlength hswitch hret']
      have hlate : ¬ EndsEmpty p byte := hlate
      split
      · rename_i hzero
        refine ⟨.accepted hret' hready' hzero, ?_⟩
        simp [ParseResult.Agrees, hsilent, LateSuccess, hlate]
      · refine ⟨.rejected rfl hready', ?_⟩
        simp [ParseResult.Agrees, hsilent, LateSuccess, hlate]
    | late hlate hret' hready' hlength' =>
      rw [BodyParser.parse_true hlength hswitch hret']
      have hlate : EndsEmpty p byte := hlate
      have hlast : p.length - 1 = 0 ↔ p.length = 1 := by omega
      rw [hlength']
      by_cases hzero : p.length - 1 = 0
      · rw [if_pos hzero]
        refine ⟨.accepted hret' hready' (hlength'.trans hzero), ?_⟩
        simp [ParseResult.Agrees, LateSuccess, hlate, hlast.mp hzero]
      · rw [if_neg hzero]
        refine ⟨.rejected rfl hready', ?_⟩
        simp [ParseResult.Agrees, hsilent, LateSuccess, mt hlast.mpr hzero]

theorem readString_failed {p : ConnectParser} (h : p.ret = .det false) (byte : UInt8)
    (ec : ErrorCode) (done : ConnectParser → Bytes → ErrorCode → ErrorCode × ConnectParser) :
    (readString p byte ec done).2.ret = .det false := by
  unfold readString
  dsimp only
  split
  · exact h
  · rw [if_pos (by simp [h])]
    rfl

/-- A parser that has failed fails again, whatever it still reads. -/
theorem parse_failed {p : ConnectParser} (h : p.ret = .det false) (uuid : Bytes) (byte : UInt8)
    (ec : ErrorCode) : (parse uuid p byte ec).ret = .det false ∧
      (parse uuid p byte ec).parser.ret = .det false := by
  have hswitch : ∀ q : ConnectParser, q.ret = .det false →
      (switch uuid q byte ec).2.ret = .det false := by
    intro q hq
    unfold switch
    cases q.own.status with
    | protocolName => exact readString_failed hq byte ec _
    | protocolLevel => dsimp only; split <;> first | rfl | exact hq
    | connectFlags => dsimp only; split <;> first | rfl | exact hq
    | keepAliveMsb => exact hq
    | keepAliveLsb => exact hq
    | clientId => exact readString_failed hq byte ec _
    | willTopic => exact readString_failed hq byte ec _
    | willMessage => exact readString_failed hq byte ec _
    | username => exact readString_failed hq byte ec _
    | password => exact readString_failed hq byte ec _
    | ready => exact hq
  unfold parse
  by_cases hlength : p.length = 0
  · simp [BodyParser.parse, hlength]
  · have hq := hswitch { p with length := p.length - 1 } h
    rw [BodyParser.parse_false hlength rfl hq]
    exact ⟨rfl, hq⟩

end ConnectParser

end Acatl.Mqtt

/-
Acatl.Mqtt.ParsedPackets — what the broker can rely on in a packet that
`MQTTParser` has completed.

The parser checks the topic of a PUBLISH packet and every filter of a SUBSCRIBE
packet as it reads them, and it creates the packet object that the fixed header
asks for. `processPacket` rests on both: it casts by the type in the header, and
the subscription tree takes valid filters only.

  `parsed_wellFormed`   whatever bytes are read, and however `reset` and
                        `consumePacket` are called in between.
-/
import Acatl.Mqtt.FilterValidation
import Acatl.Mqtt.ParserResults
import Acatl.Mqtt.SubscriptionRegistry

namespace Acatl.Mqtt

open Acatl.Lib

/-! ## §1 Well-formed packets -/

/-- The topic of a PUBLISH packet. -/
def ControlPacket.topic? (packet : ControlPacket) : Option TopicName :=
  match packet.body with
  | .publish publish => some publish.topicName
  | _ => none

/-- The packet is an object of the class in its header, and its filters and its
topic are valid. -/
structure ControlPacket.WellFormed (packet : ControlPacket) : Prop where
  typed : packet.body.controlPacketType = packet.header.controlPacketType
  filters : ∀ f ∈ packet.filters, f.Valid
  topic : ∀ t ∈ packet.topic?, t.Valid

theorem ControlPacket.WellFormed.wellTyped {packet : ControlPacket} (h : packet.WellFormed) :
    packet.WellTyped := fun _ => h.typed

/-! ## §2 The body parsers -/

theorem TopicFilter.valid_of_validate {f : TopicFilter} {ec : ErrorCode}
    (h : (f.validate ec).1 = true) : f.Valid :=
  (f.validate_iff none).mpr ((f.validate_iff ec).mp h)

theorem TopicName.valid_of_validate {t : TopicName} {ec : ErrorCode}
    (h : (t.validate ec).1 = true) : t.Valid := by
  unfold Valid
  unfold validate at h ⊢
  split at h
  · cases h
  · rename_i hplain
    rw [if_neg hplain]

/-- Behind the topic name, and in a packet that is complete, the topic has been
checked. -/
structure PublishParser.Checked (p : PublishParser) : Prop where
  behind : p.own.status = .packetIdentifier ∨ p.own.status = .payload →
    p.own.packet.topicName.Valid
  complete : p.ret = .det true → p.own.packet.topicName.Valid

theorem PublishParser.Checked.finish_false {p : PublishParser} {ec : ErrorCode} :
    Checked (finish p false ec).2 := by
  constructor <;> simp [finish]

theorem PublishParser.Checked.switch {p : PublishParser} (h : p.Checked) (byte : UInt8)
    (ec : ErrorCode) : Checked (switch p byte ec).2 := by
  unfold PublishParser.switch
  cases hs : p.own.status with
  | topicName =>
    dsimp only
    split
    · refine ⟨?_, h.complete⟩
      simp [hs]
    · split
      · exact .finish_false
      · split
        · exact .finish_false
        · rename_i hvalid
          have hvalid := TopicName.valid_of_validate (not_not.mp hvalid)
          exact ⟨fun _ => hvalid, fun _ => hvalid⟩
  | packetIdentifier =>
    have hvalid := h.behind (.inl hs)
    dsimp only
    split
    · exact .finish_false
    · split
      · split
        · exact ⟨fun _ => hvalid, fun _ => hvalid⟩
        · exact ⟨fun _ => hvalid, fun _ => hvalid⟩
      · exact ⟨fun _ => hvalid, fun _ => hvalid⟩
  | payload =>
    have hvalid := h.behind (.inr hs)
    dsimp only
    split
    · exact ⟨fun _ => hvalid, fun _ => hvalid⟩
    · exact ⟨fun _ => hvalid, fun _ => hvalid⟩
  | ready => exact h

theorem PublishParser.Checked.parse {p : PublishParser} (h : p.Checked) (byte : UInt8)
    (ec : ErrorCode) : Checked (parse p byte ec).parser := by
  unfold PublishParser.parse BodyParser.parse
  split
  · exact ⟨h.behind, by simp⟩
  · have hswitch := Checked.switch (p := { p with length := p.length - 1 }) ⟨h.behind, h.complete⟩
      byte ec
    dsimp only
    split
    · exact ⟨hswitch.behind, by simp⟩
    · exact hswitch

theorem PublishParser.Checked.reset {p : PublishParser} (qos : QoSLevel) (length : Nat) :
    Checked (p.reset qos length) := by
  constructor <;> simp [PublishParser.reset]

/-- The filters that were stored have been checked. -/
def SubscribeParser.Checked (p : SubscribeParser) : Prop :=
  ∀ f ∈ p.own.packet.topicFilters, f.Valid

theorem SubscribeParser.mem_of_mem_unique {filters : TopicFilters} {f : TopicFilter}
    (h : f ∈ unique filters) : f ∈ filters :=
  (List.destutter_sublist _ filters).subset h

section

variable {sort : TopicFilters → TopicFilters} (hsort : ∀ filters, sort filters ⊆ filters)

include hsort

theorem SubscribeParser.Checked.switch {p : SubscribeParser} (h : p.Checked) (byte : UInt8)
    (ec : ErrorCode) : Checked (switch sort p byte ec).2 := by
  unfold SubscribeParser.switch
  cases p.own.status with
  | packetIdentifier =>
    dsimp only
    split
    · exact h
    · split <;> exact h
  | topicFilter =>
    dsimp only
    split
    · exact h
    · split <;> exact h
  | qoS =>
    dsimp only
    split
    · exact h
    · split
      · exact h
      · rename_i hvalid
        have hnew := TopicFilter.valid_of_validate (not_not.mp hvalid)
        have hall : ∀ f ∈ p.own.packet.topicFilters ++
            [{ p.own.topicFilter with qos := .ofBits (byte &&& 0x03) }], f.Valid := by
          intro f hf
          rcases List.mem_append.mp hf with hf | hf
          · exact h f hf
          · exact List.mem_singleton.mp hf ▸ hnew
        split
        · exact hall
        · intro f hf
          exact hall f (hsort _ (mem_of_mem_unique hf))
  | ready => exact h

theorem SubscribeParser.Checked.parse {p : SubscribeParser} (h : p.Checked) (byte : UInt8)
    (ec : ErrorCode) : Checked (parse sort p byte ec).parser := by
  unfold SubscribeParser.parse BodyParser.parse
  split
  · exact h
  · have hswitch := Checked.switch hsort (p := { p with length := p.length - 1 }) h byte ec
    dsimp only
    split
    · exact hswitch
    · exact hswitch

end

/-! ## §3 MQTTParser -/

namespace MQTTParser

/-- The type in the fixed header is that of the body parser in use. -/
def HeaderFits (p : MQTTParser) : Prop :=
  match p.status with
  | .start | .ready => True
  | .connect => p.fixedHeaderParser.header.controlPacketType = .connect
  | .connAck => p.fixedHeaderParser.header.controlPacketType = .connack
  | .publish => p.fixedHeaderParser.header.controlPacketType = .publish
  | .subscribe => p.fixedHeaderParser.header.controlPacketType = .subscribe
  | .subAck => p.fixedHeaderParser.header.controlPacketType = .suback

/-- What a parser holds has been checked. -/
structure Checked (p : MQTTParser) : Prop where
  header : p.HeaderFits
  publish : p.publishParser.Checked
  subscribe : p.subscribeParser.Checked
  packet : ∀ packet ∈ p.packet, packet.WellFormed
  ready : p.status = .ready → p.packet.isSome = true

theorem checked_new : new.Checked where
  header := trivial
  publish := by constructor <;> simp [new, PublishParser.new]
  subscribe := by simp [SubscribeParser.Checked, new, SubscribeParser.new]
  packet := by simp [new]
  ready := by simp [new]

theorem Checked.reset {p : MQTTParser} (h : p.Checked) : p.reset.Checked :=
  ⟨trivial, h.publish, h.subscribe, h.packet, by simp [MQTTParser.reset]⟩

theorem Checked.consumePacket {p : MQTTParser} (h : p.Checked) : p.consumePacket.2.Checked :=
  ⟨trivial, h.publish, h.subscribe, by simp [MQTTParser.consumePacket],
    by simp [MQTTParser.consumePacket, MQTTParser.reset]⟩

/-- A packet without filters and topic. -/
theorem wellFormed_of_plain {packet : ControlPacket}
    (htyped : packet.body.controlPacketType = packet.header.controlPacketType)
    (hplain : packet.filters = [] ∧ packet.topic? = none) : packet.WellFormed :=
  ⟨htyped, by simp [hplain.1], by simp [hplain.2]⟩

/-- The end of a body: what the body parser has left is checked, and so is the
packet if the body is complete. -/
theorem Checked.finish {P : Type} {p : MQTTParser} {r : ParseResult P} {body : PacketBody}
    (hheader : p.HeaderFits) (hpublish : p.publishParser.Checked)
    (hsubscribe : p.subscribeParser.Checked) (hpacket : ∀ packet ∈ p.packet, packet.WellFormed)
    (hready : p.status ≠ .ready)
    (hbody : r.ret = .det true →
      (⟨p.fixedHeaderParser.header, body⟩ : ControlPacket).WellFormed) :
    (p.finish r body).parser.Checked := by
  by_cases hret : r.ret = .det true
  · rw [finish_done hret]
    refine ⟨trivial, hpublish, hsubscribe, ?_, fun _ => rfl⟩
    intro packet hpacket
    rw [← Option.mem_some.mp hpacket]
    exact hbody hret
  · rw [finish_keeps hret]
    exact ⟨hheader, hpublish, hsubscribe, hpacket, fun h => absurd h hready⟩

theorem Checked.dispatch {p : MQTTParser} (h : p.Checked) (ec : ErrorCode) :
    (p.dispatch ec).parser.Checked := by
  have hbodyless : ∀ body, bodyless p.fixedHeaderParser.header.controlPacketType = some body →
      (p.dispatch ec).parser.Checked := by
    intro body hbody
    rw [dispatch_bodyless hbody]
    refine ⟨trivial, h.publish, h.subscribe, ?_, fun _ => rfl⟩
    intro packet hpacket
    rw [← Option.mem_some.mp hpacket]
    cases ht : p.fixedHeaderParser.header.controlPacketType <;> simp [ht, bodyless] at hbody <;>
      exact wellFormed_of_plain (by rw [← hbody, ht]; rfl) (by rw [← hbody]; exact ⟨rfl, rfl⟩)
  cases ht : p.fixedHeaderParser.header.controlPacketType with
  | connect =>
    rw [dispatch_connect ht]
    exact ⟨ht, h.publish, h.subscribe, h.packet, by simp⟩
  | connack =>
    rw [dispatch_connack ht]
    exact ⟨ht, h.publish, h.subscribe, h.packet, by simp⟩
  | publish =>
    rw [dispatch_publish ht]
    exact ⟨ht, .reset _ _, h.subscribe, h.packet, by simp⟩
  | subscribe =>
    rw [dispatch_subscribe ht]
    exact ⟨ht, h.publish, h.subscribe, h.packet, by simp⟩
  | suback =>
    rw [dispatch_suback ht]
    exact ⟨ht, h.publish, h.subscribe, h.packet, by simp⟩
  | pingreq => exact hbodyless .pingReq (by rw [ht]; rfl)
  | pingresp => exact hbodyless .pingResp (by rw [ht]; rfl)
  | disconnect => exact hbodyless .disconnect (by rw [ht]; rfl)
  | none | reserved | puback | pubrec | pubrel | pubcomp | unsubscribe | unsuback =>
    obtain ⟨e, he⟩ := dispatch_unhandled (p := p) (by rw [ht]; simp [Handled]) ec
    rw [he]
    exact h

/-- **One byte keeps it.** -/
theorem Checked.parse {sort : TopicFilters → TopicFilters}
    (hsort : ∀ filters, sort filters ⊆ filters) {p : MQTTParser} (h : p.Checked) (call : Call)
    (ec : ErrorCode) : (p.parse sort call ec).parser.Checked := by
  have hheader := h.header
  unfold HeaderFits at hheader
  cases hs : p.status with
  | start =>
    have hnext : ∀ parser : FixedHeaderParser, ({ p with fixedHeaderParser := parser } :
        MQTTParser).Checked := fun parser =>
      ⟨by simp [HeaderFits, hs], h.publish, h.subscribe, h.packet, h.ready⟩
    cases hr : (p.fixedHeaderParser.parse call.byte ec).ret with
    | indeterminate =>
      rw [parse_start_indeterminate hs hr]
      exact hnext _
    | det b =>
      cases b with
      | false =>
        rw [parse_start_false hs hr]
        exact hnext _
      | true =>
        rw [parse_start_true hs hr]
        exact (hnext (p.fixedHeaderParser.parse call.byte ec).parser).dispatch _
  | connect =>
    rw [hs] at hheader
    rw [parse_connect hs]
    refine .finish ?_ h.publish h.subscribe h.packet (by simp [hs]) ?_
    · simp only [HeaderFits, hs]
      exact hheader
    · exact fun _ => wellFormed_of_plain hheader.symm ⟨rfl, rfl⟩
  | connAck =>
    rw [hs] at hheader
    rw [parse_connAck hs]
    refine .finish ?_ h.publish h.subscribe h.packet (by simp [hs]) ?_
    · simp only [HeaderFits, hs]
      exact hheader
    · exact fun _ => wellFormed_of_plain hheader.symm ⟨rfl, rfl⟩
  | publish =>
    rw [hs] at hheader
    rw [parse_publish hs]
    have hchecked := h.publish.parse call.byte ec
    refine .finish ?_ hchecked h.subscribe h.packet (by simp [hs]) ?_
    · simp only [HeaderFits, hs]
      exact hheader
    · intro hret
      refine ⟨hheader.symm, by simp [ControlPacket.filters], ?_⟩
      intro t ht
      rw [← Option.mem_some.mp ht]
      refine hchecked.complete ?_
      rw [← hret]
      exact (BodyParser.parse_ret _ _).symm
  | subscribe =>
    rw [hs] at hheader
    rw [parse_subscribe hs]
    have hchecked := SubscribeParser.Checked.parse hsort h.subscribe call.byte ec
    refine .finish ?_ h.publish hchecked h.packet (by simp [hs]) ?_
    · simp only [HeaderFits, hs]
      exact hheader
    · exact fun _ => ⟨hheader.symm, hchecked, by simp [ControlPacket.topic?]⟩
  | subAck =>
    rw [hs] at hheader
    rw [parse_subAck hs]
    refine .finish ?_ h.publish h.subscribe h.packet (by simp [hs]) ?_
    · simp only [HeaderFits, hs]
      exact hheader
    · exact fun _ => wellFormed_of_plain hheader.symm ⟨rfl, rfl⟩
  | ready =>
    rw [parse_ready hs]
    exact h

theorem checked_operate {sort : TopicFilters → TopicFilters}
    (hsort : ∀ filters, sort filters ⊆ filters) (ops : List ParserOp) :
    ((operate sort).after new ops).Checked := by
  refine Machine.inv_after _ (fun p op hp => ?_) checked_new ops
  cases op with
  | parse call => exact hp.parse hsort call none
  | reset => exact hp.reset
  | consumePacket => exact hp.consumePacket

theorem finish_ready {P : Type} {p : MQTTParser} {r : ParseResult P} {body : PacketBody}
    (h : (p.finish r body).ret = .det true) : (p.finish r body).parser.status = .ready := by
  rw [finish_ret] at h
  rw [finish_done h]

theorem dispatch_ready {p : MQTTParser} {ec : ErrorCode} (h : (p.dispatch ec).ret = .det true) :
    (p.dispatch ec).parser.status = .ready := by
  cases ht : p.fixedHeaderParser.header.controlPacketType <;>
    simp [MQTTParser.dispatch, ht] at h ⊢

/-- A call that succeeds leaves a packet to take. -/
theorem ready_of_true {sort : TopicFilters → TopicFilters} {p : MQTTParser} {call : Call}
    {ec : ErrorCode} (h : (p.parse sort call ec).ret = .det true) :
    (p.parse sort call ec).parser.status = .ready := by
  cases hs : p.status with
  | start =>
    cases hr : (p.fixedHeaderParser.parse call.byte ec).ret with
    | indeterminate => simp [parse_start_indeterminate hs hr] at h
    | det b =>
      cases b with
      | false => simp [parse_start_false hs hr] at h
      | true =>
        rw [parse_start_true hs hr] at h ⊢
        exact dispatch_ready h
  | connect =>
    rw [parse_connect hs] at h ⊢
    exact finish_ready h
  | connAck =>
    rw [parse_connAck hs] at h ⊢
    exact finish_ready h
  | publish =>
    rw [parse_publish hs] at h ⊢
    exact finish_ready h
  | subscribe =>
    rw [parse_subscribe hs] at h ⊢
    exact finish_ready h
  | subAck =>
    rw [parse_subAck hs] at h ⊢
    exact finish_ready h
  | ready => simp [parse_ready hs] at h

/-- The packet that is taken after a call that succeeds. -/
theorem Checked.consumed {sort : TopicFilters → TopicFilters}
    (hsort : ∀ filters, sort filters ⊆ filters) {p : MQTTParser} (h : p.Checked) {call : Call}
    {ec : ErrorCode} (htrue : (p.parse sort call ec).ret = .det true) :
    ∃ packet, (p.parse sort call ec).parser.consumePacket.1 = some packet ∧ packet.WellFormed := by
  have hnext := h.parse hsort call ec
  obtain ⟨packet, hpacket⟩ := Option.isSome_iff_exists.mp (hnext.ready (ready_of_true htrue))
  exact ⟨packet, hpacket, hnext.packet packet hpacket⟩

end MQTTParser

end Acatl.Mqtt

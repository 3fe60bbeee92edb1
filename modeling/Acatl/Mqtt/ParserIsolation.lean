/-
Acatl.Mqtt.ParserIsolation — what one packet leaves behind in the parser for
the next.

`deliver` drives the parser with `consumePacket` after a success and `reset`
after a failure. The run of a used parser over a frame is compared with that
of a new one. `Related` says what the two have in common while a packet is
read: everything but the members that this packet has not written yet.

  `frames_isolated`   frames do not leak into each other as long as no parser
                      starts with what an earlier packet has left in it.
-/
import Acatl.Mqtt.ParserResults
import Mathlib.Data.List.Sort

namespace Acatl.Mqtt

open Acatl.Lib

/-! ## §1 Frames -/

/-- What a packet carries: everything but the packet identifier of a PUBLISH
packet with quality of service 0, which has none. -/
def ControlPacket.carried (packet : ControlPacket) : ControlPacket :=
  match packet.body with
  | .publish body =>
    if (QoSLevel.ofBits ((packet.header.flags &&& 0x06) >>> 1)).value >
        QoSLevel.atMostOnce.value then packet
    else { packet with body := .publish { body with packetIdentifier := 0 } }
  | _ => packet

/-- The result of a call, its error code and the packet taken. -/
abbrev Delivery := Tribool × ErrorCode × Option ControlPacket

/-- A delivery, up to what its packet does not carry. -/
def Delivery.carried (d : Delivery) : Delivery := (d.1, d.2.1, d.2.2.map ControlPacket.carried)

namespace MQTTParser

/-- One byte for the parser: `consumePacket` after a success and `reset` after
a failure. -/
def deliver (sort : TopicFilters → TopicFilters) : Machine MQTTParser Call Delivery :=
  fun p call =>
    let r := p.parse sort call none
    match r.ret with
    | .det true => ((r.ret, r.ec, r.parser.consumePacket.1), r.parser.consumePacket.2)
    | .det false => ((r.ret, r.ec, none), r.parser.reset)
    | .indeterminate => ((r.ret, r.ec, none), r.parser)

/-- What the bytes of a frame lead to. -/
def frameResults (sort : TopicFilters → TopicFilters) (p : MQTTParser) (frame : List Call) :
    List Delivery :=
  ((deliver sort).outputs p frame).map Delivery.carried

/-- One frame after the other. -/
def frames (sort : TopicFilters → TopicFilters) : Machine MQTTParser (List Call) (List Delivery) :=
  fun p frame => (frameResults sort p frame, (deliver sort).after p frame)

end MQTTParser

/-! ## §2 Leftovers -/

/-- What the new parser has in a member is what the used one has, or what its
constructor put there. -/
def Leftover {β : Type} (used fresh : List β) : Prop := fresh = used ∨ fresh = []

theorem Leftover.refl {β : Type} (l : List β) : Leftover l l := .inl rfl
theorem Leftover.nil {β : Type} (l : List β) : Leftover l [] := .inr rfl

theorem Leftover.eq_of_nil {β : Type} {used fresh : List β} (h : Leftover used fresh)
    (hused : used = []) : fresh = used := by
  rcases h with h | h
  · exact h
  · rw [h, hused]

/-- The members of the packet in `ConnectParser` that not every CONNECT packet
writes. -/
structure ConnectControlPacket.Leftovers (a b : ConnectControlPacket) : Prop where
  willTopic : Leftover a.willTopic b.willTopic
  willMessage : Leftover a.willMessage b.willMessage
  userName : Leftover a.userName b.userName
  password : Leftover a.password b.password

theorem ConnectControlPacket.Leftovers.refl (a : ConnectControlPacket) : a.Leftovers a :=
  ⟨.refl _, .refl _, .refl _, .refl _⟩

/-! ## §3 Two body parsers side by side -/

/-- Two calls that agree: the parsers they leave are related by `More` while
the body goes on, by `Done` when it is complete, and by `Left` in any case. -/
structure ParseResult.Alike {P : Type} (More Done Left : P → P → Prop) (r t : ParseResult P) :
    Prop where
  ret : t.ret = r.ret
  ec : t.ec = r.ec
  more : r.ret = .indeterminate → More r.parser t.parser
  done : r.ret = .det true → Done r.parser t.parser
  left : Left r.parser t.parser

namespace BodyParser

variable {α : Type}

/-- The same for what two switches leave, on the members. -/
inductive Alike (Rel Done Left : α → α → Prop) :
    ErrorCode × BodyParser α → ErrorCode × BodyParser α → Prop
  | more {ec : ErrorCode} {n : Nat} {a b : α} (h : Rel a b) (hleft : Left a b) :
      Alike Rel Done Left (ec, ⟨.indeterminate, n, a⟩) (ec, ⟨.indeterminate, n, b⟩)
  | failed {ec : ErrorCode} {n : Nat} {a b : α} (hleft : Left a b) :
      Alike Rel Done Left (ec, ⟨.det false, n, a⟩) (ec, ⟨.det false, n, b⟩)
  | done {ec : ErrorCode} {n : Nat} {a b : α} (h : Done a b) (hleft : Left a b) :
      Alike Rel Done Left (ec, ⟨.det true, n, a⟩) (ec, ⟨.det true, n, b⟩)

/-- Two parsers in the middle of the same body. -/
inductive Paired (Rel : α → α → Prop) : BodyParser α → BodyParser α → Prop
  | mk {n : Nat} {a b : α} (h : Rel a b) :
      Paired Rel ⟨.indeterminate, n, a⟩ ⟨.indeterminate, n, b⟩

/-- **Two parsers whose switches agree agree.** -/
theorem Paired.parse {Rel Done Left : α → α → Prop}
    {switch : BodyParser α → UInt8 → ErrorCode → ErrorCode × BodyParser α}
    {overlong : BodyParser α → BodyParser α} {p q : BodyParser α} {byte : UInt8}
    (h : Paired Rel p q) (hleft : Left p.own q.own)
    (hoverlong : ∀ p q : BodyParser α, Left p.own q.own → Left (overlong p).own (overlong q).own)
    (hswitch : ∀ n a b, p.length ≠ 0 → p.own = a → q.own = b → Rel a b →
      Alike Rel Done Left (switch ⟨.indeterminate, n, a⟩ byte none)
        (switch ⟨.indeterminate, n, b⟩ byte none)) :
    ParseResult.Alike (Paired Rel) (fun p q => Done p.own q.own) (fun p q => Left p.own q.own)
      (BodyParser.parse switch overlong p byte none)
      (BodyParser.parse switch overlong q byte none) := by
  obtain ⟨hrel⟩ := h
  rename_i n a b
  unfold BodyParser.parse
  by_cases hn : n = 0
  · simp only [if_pos hn]
    exact ⟨rfl, rfl, by simp, by simp, hleft⟩
  simp only [if_neg hn]
  have hagree := hswitch (n - 1) a b hn rfl rfl hrel
  generalize switch ⟨.indeterminate, n - 1, a⟩ byte none = r at hagree ⊢
  generalize switch ⟨.indeterminate, n - 1, b⟩ byte none = t at hagree ⊢
  cases hagree with
  | more h hleft => exact ⟨rfl, rfl, fun _ => ⟨h⟩, by simp, hleft⟩
  | failed hleft => exact ⟨rfl, rfl, by simp, by simp, hleft⟩
  | @done ec length a b h hleft =>
    by_cases hlength : length = 0
    · simp only [hlength, ne_eq, not_true_eq_false, and_false, if_false]
      exact ⟨rfl, rfl, by simp, fun _ => h, hleft⟩
    · simp only [ne_eq, hlength, not_false_eq_true, and_true, Tribool.isTrue_det, if_true]
      exact ⟨rfl, rfl, by simp, by simp,
        hoverlong ⟨.det true, length, a⟩ ⟨.det true, length, b⟩ hleft⟩

end BodyParser

/-! ### SUBSCRIBE -/

namespace SubscribeMembers

def Left (a b : SubscribeMembers) : Prop :=
  Leftover a.packet.topicFilters b.packet.topicFilters

def Done (a b : SubscribeMembers) : Prop := b.packet = a.packet

/-- The members of two parsers that have read the same part of a SUBSCRIBE
body. -/
inductive Rel : SubscribeMembers → SubscribeMembers → Prop
  | start {i i' j j' : PacketIdentifier} {filters filters' : TopicFilters} {sp : StringParser}
      {f f' : TopicFilter} :
      Rel ⟨.packetIdentifier, ⟨i, filters⟩, ⟨.start, j⟩, sp, f⟩
        ⟨.packetIdentifier, ⟨i', filters'⟩, ⟨.start, j'⟩, sp, f'⟩
  | identifier {i i' j : PacketIdentifier} {filters : TopicFilters} {sp : StringParser}
      {f f' : TopicFilter} :
      Rel ⟨.packetIdentifier, ⟨i, filters⟩, ⟨.readIdentifier, j⟩, sp, f⟩
        ⟨.packetIdentifier, ⟨i', filters⟩, ⟨.readIdentifier, j⟩, sp, f'⟩
  | topicFilter {packet : SubscribeControlPacket} {ip ip' : PacketIdentifierParser}
      {sp : StringParser} {f f' : TopicFilter} :
      Rel ⟨.topicFilter, packet, ip, sp, f⟩ ⟨.topicFilter, packet, ip', sp, f'⟩
  | qoS {packet : SubscribeControlPacket} {ip ip' : PacketIdentifierParser} {sp : StringParser}
      {filter : Bytes} {q q' : QoSLevel} :
      Rel ⟨.qoS, packet, ip, sp, ⟨filter, q⟩⟩ ⟨.qoS, packet, ip', sp, ⟨filter, q'⟩⟩

/-- The first byte of the body, with filters of an earlier packet. -/
def Stale (a : SubscribeMembers) : Prop :=
  a.status = .packetIdentifier ∧ a.identifierParser.status = .start ∧ a.packet.topicFilters ≠ []

instance (a : SubscribeMembers) : Decidable a.Stale := inferInstanceAs (Decidable (_ ∧ _ ∧ _))

theorem Rel.switch {a b : SubscribeMembers} (h : Rel a b) (hleft : Left a b) (hstale : ¬ a.Stale)
    (sort : TopicFilters → TopicFilters) (n : Nat) (byte : UInt8) :
    BodyParser.Alike Rel Done Left (SubscribeParser.switch sort ⟨.indeterminate, n, a⟩ byte none)
      (SubscribeParser.switch sort ⟨.indeterminate, n, b⟩ byte none) := by
  cases h with
  | @start i i' j j' filters filters' sp f f' =>
    have hnil : filters = [] := by
      by_contra hne
      exact hstale ⟨rfl, rfl, hne⟩
    obtain rfl : filters' = filters := hleft.eq_of_nil hnil
    exact .more .identifier (.refl _)
  | identifier => exact .more .topicFilter (.refl _)
  | @topicFilter packet ip ip' sp f f' =>
    unfold SubscribeParser.switch
    rcases (sp.parse_agrees byte).cases with ⟨hr, hec⟩ | ⟨hr, hec⟩ | ⟨hr, hec⟩
    · simp only [hr, hec]
      exact .more .topicFilter (.refl _)
    · simp only [hr]
      exact .failed (.refl _)
    · simp only [hr, hec]
      exact .more .qoS (.refl _)
  | @qoS packet ip ip' sp filter q q' =>
    unfold SubscribeParser.switch
    by_cases hbits : byte &&& 0xFC ≠ 0 ∨ byte &&& 0x03 > 2
    · simp only [if_pos hbits]
      exact .failed (.refl _)
    simp only [if_neg hbits]
    by_cases hvalid : (TopicFilter.validate ⟨filter, .ofBits (byte &&& 0x03)⟩ none).1
    · by_cases hn : n > 0
      · simp only [hvalid, hn, not_true_eq_false, if_false, if_true]
        exact .more .topicFilter (.refl _)
      · simp only [hvalid, hn, not_true_eq_false, if_false]
        exact .done rfl (.refl _)
    · simp only [hvalid]
      exact .failed (.refl _)

end SubscribeMembers

/-! ### SUBACK -/

namespace SubAckMembers

def Left (a b : SubAckMembers) : Prop := Leftover a.packet.qosLevels b.packet.qosLevels

def Done (a b : SubAckMembers) : Prop := b.packet = a.packet

/-- The members of two parsers that have read the same part of a SUBACK body. -/
inductive Rel : SubAckMembers → SubAckMembers → Prop
  | start {i i' j j' : PacketIdentifier} {levels levels' : List QoSLevel} :
      Rel ⟨.packetIdentifier, ⟨i, levels⟩, ⟨.start, j⟩⟩
        ⟨.packetIdentifier, ⟨i', levels'⟩, ⟨.start, j'⟩⟩
  | identifier {i i' j : PacketIdentifier} {levels : List QoSLevel} :
      Rel ⟨.packetIdentifier, ⟨i, levels⟩, ⟨.readIdentifier, j⟩⟩
        ⟨.packetIdentifier, ⟨i', levels⟩, ⟨.readIdentifier, j⟩⟩
  | qoS {packet : SubAckControlPacket} {ip : PacketIdentifierParser} :
      Rel ⟨.qoS, packet, ip⟩ ⟨.qoS, packet, ip⟩

/-- The first byte of the body, with levels of an earlier packet. -/
def Stale (a : SubAckMembers) : Prop :=
  a.status = .packetIdentifier ∧ a.identifierParser.status = .start ∧ a.packet.qosLevels ≠ []

instance (a : SubAckMembers) : Decidable a.Stale := inferInstanceAs (Decidable (_ ∧ _ ∧ _))

theorem Rel.switch {a b : SubAckMembers} (h : Rel a b) (hleft : Left a b) (hstale : ¬ a.Stale)
    (n : Nat) (byte : UInt8) :
    BodyParser.Alike Rel Done Left (SubAckParser.switch ⟨.indeterminate, n, a⟩ byte none)
      (SubAckParser.switch ⟨.indeterminate, n, b⟩ byte none) := by
  cases h with
  | @start i i' j j' levels levels' =>
    have hnil : levels = [] := by
      by_contra hne
      exact hstale ⟨rfl, rfl, hne⟩
    obtain rfl : levels' = levels := hleft.eq_of_nil hnil
    exact .more .identifier (.refl _)
  | identifier =>
    unfold SubAckParser.switch
    by_cases hn : n = 0
    · simp only [hn, PacketIdentifierParser.parse]
      exact .done rfl (.refl _)
    · simp only [ne_eq, hn, PacketIdentifierParser.parse]
      exact .more .qoS (.refl _)
  | qoS =>
    unfold SubAckParser.switch
    by_cases hbyte : byte > 0x02
    · simp only [if_pos hbyte]
      exact .failed (.refl _)
    simp only [if_neg hbyte]
    by_cases hn : n = 0
    · simp only [if_pos hn]
      exact .done rfl (.refl _)
    · simp only [if_neg hn]
      exact .more .qoS (.refl _)

end SubAckMembers

/-! ### PUBLISH -/

namespace PublishMembers

/-- A PUBLISH body writes all members but the packet identifier. -/
def Left (_ _ : PublishMembers) : Prop := True

def Done (qos : QoSLevel) (a b : PublishMembers) : Prop :=
  ∃ i, b.packet = { a.packet with packetIdentifier := i } ∧
    (qos.value > QoSLevel.atMostOnce.value → i = a.packet.packetIdentifier)

/-- The members of two parsers that have read the same part of a PUBLISH
body. -/
inductive Rel (qos : QoSLevel) : PublishMembers → PublishMembers → Prop
  | topicName {topic topic' : TopicName} {i i' j j' : PacketIdentifier} {payload : Bytes}
      {sp : StringParser} :
      Rel qos ⟨.topicName, ⟨topic, i, payload⟩, qos, sp, ⟨.start, j⟩⟩
        ⟨.topicName, ⟨topic', i', payload⟩, qos, sp, ⟨.start, j'⟩⟩
  | start {topic : TopicName} {i i' j j' : PacketIdentifier} {payload : Bytes}
      {sp : StringParser} :
      Rel qos ⟨.packetIdentifier, ⟨topic, i, payload⟩, qos, sp, ⟨.start, j⟩⟩
        ⟨.packetIdentifier, ⟨topic, i', payload⟩, qos, sp, ⟨.start, j'⟩⟩
  | identifier {topic : TopicName} {i i' j : PacketIdentifier} {payload : Bytes}
      {sp : StringParser} :
      Rel qos ⟨.packetIdentifier, ⟨topic, i, payload⟩, qos, sp, ⟨.readIdentifier, j⟩⟩
        ⟨.packetIdentifier, ⟨topic, i', payload⟩, qos, sp, ⟨.readIdentifier, j⟩⟩
  | payload {topic : TopicName} {i i' : PacketIdentifier} {payload : Bytes} {sp : StringParser}
      {ip ip' : PacketIdentifierParser} (hi : qos.value > QoSLevel.atMostOnce.value → i' = i) :
      Rel qos ⟨.payload, ⟨topic, i, payload⟩, qos, sp, ip⟩
        ⟨.payload, ⟨topic, i', payload⟩, qos, sp, ip'⟩

theorem Rel.switch {qos : QoSLevel} {a b : PublishMembers} (h : Rel qos a b) (n : Nat)
    (byte : UInt8) :
    BodyParser.Alike (Rel qos) (Done qos) Left
      (PublishParser.switch ⟨.indeterminate, n, a⟩ byte none)
      (PublishParser.switch ⟨.indeterminate, n, b⟩ byte none) := by
  cases h with
  | @topicName topic topic' i i' j j' payload sp =>
    unfold PublishParser.switch
    rcases (sp.parse_agrees byte).cases with ⟨hr, hec⟩ | ⟨hr, hec⟩ | ⟨hr, hec⟩
    · simp only [hr, hec]
      exact .more .topicName trivial
    · obtain ⟨e, he⟩ := Option.ne_none_iff_exists'.mp hec
      simp only [hr, he]
      exact .failed trivial
    · simp only [hr, hec]
      by_cases hvalid : (TopicName.validate ⟨(sp.parse byte none).parser.string⟩ none).1
      · by_cases hqos : qos.value > QoSLevel.atMostOnce.value
        · simp only [hvalid, hqos]
          exact .more .start trivial
        · simp only [hvalid, hqos]
          exact .more (.payload fun h => absurd h hqos) trivial
      · simp only [hvalid]
        exact .failed trivial
  | start => exact .more .identifier trivial
  | identifier =>
    unfold PublishParser.switch
    by_cases hn : n = 0
    · simp only [hn, PacketIdentifierParser.parse]
      exact .done ⟨_, rfl, fun _ => rfl⟩ trivial
    · simp only [ne_eq, hn, PacketIdentifierParser.parse]
      exact .more (.payload fun _ => rfl) trivial
  | payload hi =>
    unfold PublishParser.switch
    by_cases hn : n = 0
    · simp only [if_pos hn]
      exact .done ⟨_, rfl, hi⟩ trivial
    · simp only [if_neg hn]
      exact .more (.payload hi) trivial

end PublishMembers

/-! ### CONNECT -/

namespace ConnectMembers

def Left (a b : ConnectMembers) : Prop := a.packet.Leftovers b.packet

def Done (a b : ConnectMembers) : Prop := b.packet = a.packet

/-- The members of two parsers that have read the same part of a CONNECT body.
The flags tell which of the strings will not be read any more. -/
inductive Rel : ConnectMembers → ConnectMembers → Prop
  | protocolName {a b : ConnectControlPacket} {sp : StringParser} :
      Rel ⟨.protocolName, a, sp⟩ ⟨.protocolName, b, sp⟩
  | protocolLevel {a b : ConnectControlPacket} {sp : StringParser} :
      Rel ⟨.protocolLevel, a, sp⟩ ⟨.protocolLevel, b, sp⟩
  | connectFlags {a b : ConnectControlPacket} {sp : StringParser}
      (hlevel : b.protocolLevel = a.protocolLevel) :
      Rel ⟨.connectFlags, a, sp⟩ ⟨.connectFlags, b, sp⟩
  | keepAliveMsb {a : ConnectControlPacket} {sp : StringParser} {k : UInt16}
      {c wt wm u p : Bytes}
      (hwill : a.willFlag = false → wt = a.willTopic ∧ wm = a.willMessage)
      (huser : a.userNameFlag = false → u = a.userName ∧ p = a.password) :
      Rel ⟨.keepAliveMsb, a, sp⟩ ⟨.keepAliveMsb, { a with
        keepAlive := k, clientId := c, willTopic := wt, willMessage := wm
        userName := u, password := p }, sp⟩
  | keepAliveLsb {a : ConnectControlPacket} {sp : StringParser} {c wt wm u p : Bytes}
      (hwill : a.willFlag = false → wt = a.willTopic ∧ wm = a.willMessage)
      (huser : a.userNameFlag = false → u = a.userName ∧ p = a.password) :
      Rel ⟨.keepAliveLsb, a, sp⟩ ⟨.keepAliveLsb, { a with
        clientId := c, willTopic := wt, willMessage := wm, userName := u, password := p }, sp⟩
  | clientId {a : ConnectControlPacket} {sp : StringParser} {c wt wm u p : Bytes}
      (hwill : a.willFlag = false → wt = a.willTopic ∧ wm = a.willMessage)
      (huser : a.userNameFlag = false → u = a.userName ∧ p = a.password) :
      Rel ⟨.clientId, a, sp⟩ ⟨.clientId, { a with
        clientId := c, willTopic := wt, willMessage := wm, userName := u, password := p }, sp⟩
  | willTopic {a : ConnectControlPacket} {sp : StringParser} {wt wm u p : Bytes}
      (huser : a.userNameFlag = false → u = a.userName ∧ p = a.password) :
      Rel ⟨.willTopic, a, sp⟩ ⟨.willTopic, { a with
        willTopic := wt, willMessage := wm, userName := u, password := p }, sp⟩
  | willMessage {a : ConnectControlPacket} {sp : StringParser} {wm u p : Bytes}
      (huser : a.userNameFlag = false → u = a.userName ∧ p = a.password) :
      Rel ⟨.willMessage, a, sp⟩ ⟨.willMessage, { a with
        willMessage := wm, userName := u, password := p }, sp⟩
  | username {a : ConnectControlPacket} {sp : StringParser} {u p : Bytes} :
      Rel ⟨.username, a, sp⟩ ⟨.username, { a with userName := u, password := p }, sp⟩
  | password {a : ConnectControlPacket} {sp : StringParser} {p : Bytes} :
      Rel ⟨.password, a, sp⟩ ⟨.password, { a with password := p }, sp⟩

/-- A flags byte without the will flag or the user name flag, with the strings
of an earlier packet that had it. -/
def Stale (a : ConnectMembers) (byte : UInt8) : Prop :=
  a.status = .connectFlags ∧
    (byte &&& 0x04 = 0 ∧ (a.packet.willTopic ≠ [] ∨ a.packet.willMessage ≠ []) ∨
      byte &&& 0x80 = 0 ∧ (a.packet.userName ≠ [] ∨ a.packet.password ≠ []))

instance (a : ConnectMembers) (byte : UInt8) : Decidable (a.Stale byte) :=
  inferInstanceAs (Decidable (_ ∧ _))

/-- A byte of a string: what is left to show is what a complete string does. -/
theorem alike_readString {status : ConnectParser.Status} {a b : ConnectControlPacket}
    (hmore : ∀ sp, Rel ⟨status, a, sp⟩ ⟨status, b, sp⟩) (hleft : a.Leftovers b)
    {done : ConnectParser → Bytes → ErrorCode → ErrorCode × ConnectParser} {n : Nat}
    (hdone : ∀ sp string, BodyParser.Alike Rel Done Left
      (done ⟨.indeterminate, n, ⟨status, a, sp⟩⟩ string none)
      (done ⟨.indeterminate, n, ⟨status, b, sp⟩⟩ string none)) (sp : StringParser) (byte : UInt8) :
    BodyParser.Alike Rel Done Left
      (ConnectParser.readString ⟨.indeterminate, n, ⟨status, a, sp⟩⟩ byte none done)
      (ConnectParser.readString ⟨.indeterminate, n, ⟨status, b, sp⟩⟩ byte none done) := by
  unfold ConnectParser.readString
  rcases (sp.parse_agrees byte).cases with ⟨hr, hec⟩ | ⟨hr, hec⟩ | ⟨hr, hec⟩
  · simp only [hr, hec]
    exact .more (hmore _) hleft
  · obtain ⟨e, he⟩ := Option.ne_none_iff_exists'.mp hec
    simp only [hr, he]
    exact .failed hleft
  · simp only [hr, hec]
    exact hdone _ _

/-- What follows the client identifier, after success or failure. -/
theorem alike_afterClientId (a : ConnectControlPacket) {wt wm u p : Bytes}
    (hwill : a.willFlag = false → wt = a.willTopic ∧ wm = a.willMessage)
    (huser : a.userNameFlag = false → u = a.userName ∧ p = a.password)
    (hleft : a.Leftovers { a with willTopic := wt, willMessage := wm, userName := u, password := p })
    {ret : Tribool} (hret : ret ≠ .det true) (ec : ErrorCode) (n : Nat)
    (status : ConnectParser.Status) (sp : StringParser) :
    BodyParser.Alike Rel Done Left
      (ec, ConnectParser.afterClientId ⟨ret, n, ⟨status, a, sp⟩⟩)
      (ec, ConnectParser.afterClientId ⟨ret, n, ⟨status, { a with
        willTopic := wt, willMessage := wm, userName := u, password := p }, sp⟩⟩) := by
  unfold ConnectParser.afterClientId
  by_cases hw : a.willFlag = true
  · simp only [if_pos hw]
    cases ret with
    | indeterminate => exact .more (.willTopic huser) hleft
    | det b =>
      cases b with
      | false => exact .failed hleft
      | true => exact absurd rfl hret
  obtain ⟨rfl, rfl⟩ := hwill (by simpa using hw)
  by_cases hu : a.userNameFlag = true
  · simp only [if_neg hw, if_pos hu]
    cases ret with
    | indeterminate => exact .more .username hleft
    | det b =>
      cases b with
      | false => exact .failed hleft
      | true => exact absurd rfl hret
  · obtain ⟨rfl, rfl⟩ := huser (by simpa using hu)
    simp only [if_neg hw, if_neg hu]
    exact .done rfl (.refl _)

/-- A complete client identifier. -/
theorem alike_clientIdDone {a : ConnectControlPacket} {c wt wm u p : Bytes}
    (hwill : a.willFlag = false → wt = a.willTopic ∧ wm = a.willMessage)
    (huser : a.userNameFlag = false → u = a.userName ∧ p = a.password)
    (hleft : a.Leftovers { a with
      clientId := c, willTopic := wt, willMessage := wm, userName := u, password := p })
    (uuid string : Bytes) (n : Nat) (sp : StringParser) :
    BodyParser.Alike Rel Done Left
      (ConnectParser.clientIdDone uuid ⟨.indeterminate, n, ⟨.clientId, a, sp⟩⟩ string none)
      (ConnectParser.clientIdDone uuid ⟨.indeterminate, n, ⟨.clientId, { a with
        clientId := c, willTopic := wt, willMessage := wm, userName := u, password := p },
        sp⟩⟩ string none) := by
  have hafter : ∀ (stored : Bytes) (ret : Tribool) (ec : ErrorCode)
      (status : ConnectParser.Status), ret ≠ .det true →
      BodyParser.Alike Rel Done Left
        (ec, ConnectParser.afterClientId ⟨ret, n, ⟨status, { a with clientId := stored }, sp⟩⟩)
        (ec, ConnectParser.afterClientId ⟨ret, n, ⟨status, { a with
          clientId := stored, willTopic := wt, willMessage := wm, userName := u
          password := p }, sp⟩⟩) := by
    intro stored ret ec status hret
    refine alike_afterClientId { a with clientId := stored } hwill huser ?_ hret ec n status sp
    exact ⟨hleft.1, hleft.2, hleft.3, hleft.4⟩
  unfold ConnectParser.clientIdDone ConnectParser.storeClientId ConnectParser.fail
  by_cases hid : string = []
  · by_cases hclean : ¬ a.cleanSession = true
    · simp only [if_pos hid, if_pos hclean]
      exact hafter uuid _ _ _ (by simp)
    · simp only [if_pos hid, if_neg hclean]
      exact hafter uuid _ _ _ (by simp)
  · simp only [if_neg hid]
    exact hafter string _ _ _ (by simp)

theorem Rel.switch {a b : ConnectMembers} (h : Rel a b) (hleft : Left a b) {byte : UInt8}
    (hstale : ¬ a.Stale byte) (uuid : Bytes) (n : Nat) :
    BodyParser.Alike Rel Done Left (ConnectParser.switch uuid ⟨.indeterminate, n, a⟩ byte none)
      (ConnectParser.switch uuid ⟨.indeterminate, n, b⟩ byte none) := by
  cases h with
  | @protocolName a b sp =>
    unfold ConnectParser.switch
    dsimp only
    refine alike_readString (fun _ => .protocolName) hleft (fun sp string => ?_) sp byte
    by_cases hname : string ≠ ConnectParser.protocolName
    · simp only [if_pos hname]
      exact .failed hleft
    · simp only [if_neg hname]
      exact .more .protocolLevel hleft
  | protocolLevel =>
    unfold ConnectParser.switch
    by_cases hlevel : byte ≠ 0x04
    · simp only [if_pos hlevel]
      exact .failed hleft
    · simp only [if_neg hlevel]
      exact .more (.connectFlags rfl) ⟨hleft.1, hleft.2, hleft.3, hleft.4⟩
  | @connectFlags a b sp hlevel =>
    unfold ConnectParser.switch
    by_cases hreserved : byte &&& 0x01 ≠ 0
    · simp only [if_pos hreserved]
      exact .failed hleft
    simp only [if_neg hreserved]
    have hflags : ConnectParser.setFlags b byte = { ConnectParser.setFlags a byte with
        keepAlive := b.keepAlive, clientId := b.clientId, willTopic := b.willTopic
        willMessage := b.willMessage, userName := b.userName, password := b.password } := by
      simp [ConnectParser.setFlags, hlevel]
    rw [hflags]
    refine .more (.keepAliveMsb ?_ ?_) ⟨hleft.1, hleft.2, hleft.3, hleft.4⟩
    · intro hflag
      have hbit : byte &&& 0x04 = 0 := by simpa [ConnectParser.setFlags] using hflag
      have hnil : a.willTopic = [] ∧ a.willMessage = [] := by
        by_contra hne
        exact hstale ⟨rfl, .inl ⟨hbit, not_and_or.mp hne⟩⟩
      exact ⟨hleft.willTopic.eq_of_nil hnil.1, hleft.willMessage.eq_of_nil hnil.2⟩
    · intro hflag
      have hbit : byte &&& 0x80 = 0 := by simpa [ConnectParser.setFlags] using hflag
      have hnil : a.userName = [] ∧ a.password = [] := by
        by_contra hne
        exact hstale ⟨rfl, .inr ⟨hbit, not_and_or.mp hne⟩⟩
      exact ⟨hleft.userName.eq_of_nil hnil.1, hleft.password.eq_of_nil hnil.2⟩
  | keepAliveMsb hwill huser =>
    exact .more (.keepAliveLsb hwill huser) ⟨hleft.1, hleft.2, hleft.3, hleft.4⟩
  | keepAliveLsb hwill huser =>
    exact .more (.clientId hwill huser) ⟨hleft.1, hleft.2, hleft.3, hleft.4⟩
  | @clientId a sp c wt wm u p hwill huser =>
    exact alike_readString (fun _ => .clientId hwill huser) hleft
      (fun sp string => alike_clientIdDone hwill huser hleft uuid string n sp) sp byte
  | @willTopic a sp wt wm u p huser =>
    unfold ConnectParser.switch
    dsimp only
    refine alike_readString (fun _ => .willTopic huser) hleft (fun sp string => ?_) sp byte
    exact .more (.willMessage huser) ⟨.refl _, hleft.2, hleft.3, hleft.4⟩
  | @willMessage a sp wm u p huser =>
    unfold ConnectParser.switch
    dsimp only
    refine alike_readString (fun _ => .willMessage huser) hleft (fun sp string => ?_) sp byte
    by_cases hflag : a.userNameFlag = true
    · simp only [if_pos hflag]
      exact .more .username ⟨hleft.1, .refl _, hleft.3, hleft.4⟩
    · obtain ⟨rfl, rfl⟩ := huser (by simpa using hflag)
      simp only [if_neg hflag]
      exact .done rfl (.refl _)
  | @username a sp u p =>
    unfold ConnectParser.switch
    dsimp only
    refine alike_readString (fun _ => .username) hleft (fun sp string => ?_) sp byte
    exact .more .password ⟨hleft.1, hleft.2, .refl _, hleft.4⟩
  | @password a sp p =>
    unfold ConnectParser.switch
    dsimp only
    refine alike_readString (fun _ => .password) hleft (fun sp string => ?_) sp byte
    exact .done rfl (.refl _)

end ConnectMembers

/-! ### CONNACK -/

/-- Two parsers that have read the same part of a CONNACK body. -/
inductive ConnectAckParser.Rel : ConnectAckParser → ConnectAckParser → Prop
  | flag {packet packet' : ConnAckControlPacket} :
      Rel ⟨.connectAcknowledgeFlag, packet⟩ ⟨.connectAcknowledgeFlag, packet'⟩
  | code {flag : ConnectAcknowledgeFlags} {code code' : ConnectReturnCode} :
      Rel ⟨.connectReturnCode, ⟨flag, code⟩⟩ ⟨.connectReturnCode, ⟨flag, code'⟩⟩

theorem ConnectAckParser.Rel.parse {p q : ConnectAckParser} (h : Rel p q) (byte : UInt8) :
    ParseResult.Alike Rel (fun p q => q.packet = p.packet) (fun _ _ => True)
      (p.parse byte none) (q.parse byte none) := by
  cases h with
  | flag =>
    unfold ConnectAckParser.parse
    by_cases hbyte : byte &&& 0xFE ≠ 0
    · simp only [if_pos hbyte]
      exact ⟨rfl, rfl, by simp, by simp, trivial⟩
    · simp only [if_neg hbyte]
      exact ⟨rfl, rfl, fun _ => .code, by simp, trivial⟩
  | code =>
    unfold ConnectAckParser.parse
    by_cases hbyte : byte > 5
    · simp only [if_pos hbyte]
      exact ⟨rfl, rfl, by simp, by simp, trivial⟩
    · simp only [if_neg hbyte]
      exact ⟨rfl, rfl, by simp, fun _ => rfl, trivial⟩

/-! ## §4 Two parsers side by side -/

namespace MQTTParser

variable {sort : TopicFilters → TopicFilters} {p q : MQTTParser} {call : Call}

/-- What an earlier packet may have left in the body parsers. -/
structure Leftovers (p q : MQTTParser) : Prop where
  connect : ConnectMembers.Left p.connectParser.own q.connectParser.own
  subscribe : SubscribeMembers.Left p.subscribeParser.own q.subscribeParser.own
  subAck : SubAckMembers.Left p.subAckParser.own q.subAckParser.own

/-- The quality of service in a fixed header. -/
def headerQoS (header : FixedHeader) : QoSLevel := .ofBits ((header.flags &&& 0x06) >>> 1)

/-- The body parsers in use have read the same part of the body. -/
def InUse (p q : MQTTParser) : Prop :=
  match p.status with
  | .start | .ready => True
  | .connect => BodyParser.Paired ConnectMembers.Rel p.connectParser q.connectParser
  | .connAck => ConnectAckParser.Rel p.connAckParser q.connAckParser
  | .publish =>
    BodyParser.Paired (PublishMembers.Rel (headerQoS p.fixedHeaderParser.header))
      p.publishParser q.publishParser
  | .subscribe => BodyParser.Paired SubscribeMembers.Rel p.subscribeParser q.subscribeParser
  | .subAck => BodyParser.Paired SubAckMembers.Rel p.subAckParser q.subAckParser

/-- Two parsers that have read the same part of a packet. -/
structure Related (p q : MQTTParser) : Prop where
  status : q.status = p.status
  header : q.fixedHeaderParser = p.fixedHeaderParser
  left : Leftovers p q
  inUse : InUse p q

/-- The byte starts to use what an earlier packet has left in a body parser. -/
def Stale (p : MQTTParser) (call : Call) : Prop :=
  (p.status = .connect ∧ p.connectParser.length ≠ 0 ∧ p.connectParser.own.Stale call.byte) ∨
  (p.status = .subscribe ∧ p.subscribeParser.length ≠ 0 ∧ p.subscribeParser.own.Stale) ∨
  (p.status = .subAck ∧ p.subAckParser.length ≠ 0 ∧ p.subAckParser.own.Stale)

instance (p : MQTTParser) (call : Call) : Decidable (p.Stale call) :=
  inferInstanceAs (Decidable (_ ∨ _ ∨ _))

/-! ### The three ends of a call -/

theorem deliver_indeterminate {ec : ErrorCode} {p' : MQTTParser}
    (h : p.parse sort call none = ⟨.indeterminate, ec, p'⟩) :
    deliver sort p call = ((.indeterminate, ec, none), p') := by
  simp [deliver, h]

theorem deliver_false {ec : ErrorCode} {p' : MQTTParser}
    (h : p.parse sort call none = ⟨.det false, ec, p'⟩) :
    deliver sort p call = ((.det false, ec, none), p'.reset) := by
  simp [deliver, h]

theorem deliver_true {ec : ErrorCode} {p' : MQTTParser}
    (h : p.parse sort call none = ⟨.det true, ec, p'⟩) :
    deliver sort p call = ((.det true, ec, p'.packet), { p'.reset with packet := none }) := by
  simp [deliver, h, consumePacket]

/-- Two calls deliver the same, and leave the parsers related. -/
def DeliverAlike (sort : TopicFilters → TopicFilters) (p q : MQTTParser) (call : Call) : Prop :=
  Delivery.carried (deliver sort p call).1 = Delivery.carried (deliver sort q call).1 ∧
    Related (deliver sort p call).2 (deliver sort q call).2

theorem alike_of_indeterminate {ec : ErrorCode} {p' q' : MQTTParser}
    (hp : p.parse sort call none = ⟨.indeterminate, ec, p'⟩)
    (hq : q.parse sort call none = ⟨.indeterminate, ec, q'⟩) (h : Related p' q') :
    DeliverAlike sort p q call := by
  unfold DeliverAlike
  rw [deliver_indeterminate hp, deliver_indeterminate hq]
  exact ⟨rfl, h⟩

theorem alike_of_false {ec : ErrorCode} {p' q' : MQTTParser}
    (hp : p.parse sort call none = ⟨.det false, ec, p'⟩)
    (hq : q.parse sort call none = ⟨.det false, ec, q'⟩) (h : Leftovers p' q') :
    DeliverAlike sort p q call := by
  unfold DeliverAlike
  rw [deliver_false hp, deliver_false hq]
  exact ⟨rfl, rfl, rfl, ⟨h.1, h.2, h.3⟩, trivial⟩

theorem alike_of_true {ec : ErrorCode} {p' q' : MQTTParser}
    (hp : p.parse sort call none = ⟨.det true, ec, p'⟩)
    (hq : q.parse sort call none = ⟨.det true, ec, q'⟩)
    (hpacket : p'.packet.map ControlPacket.carried = q'.packet.map ControlPacket.carried)
    (h : Leftovers p' q') : DeliverAlike sort p q call := by
  unfold DeliverAlike
  rw [deliver_true hp, deliver_true hq]
  exact ⟨by simp [Delivery.carried, hpacket], rfl, rfl, ⟨h.1, h.2, h.3⟩, trivial⟩

/-- The call of a body parser, as `MQTTParser` passes it on. -/
theorem alike_finish {P : Type} {More Done Left : P → P → Prop} {r t : ParseResult P}
    (h : ParseResult.Alike More Done Left r t) {p' q' : MQTTParser} {x y : PacketBody}
    (hp : p.parse sort call none = p'.finish r x) (hq : q.parse sort call none = q'.finish t y)
    (hheader : q'.fixedHeaderParser = p'.fixedHeaderParser) (hleft : Leftovers p' q')
    (hmore : More r.parser t.parser → Related p' q')
    (hdone : Done r.parser t.parser →
      (⟨p'.fixedHeaderParser.header, x⟩ : ControlPacket).carried =
        ControlPacket.carried ⟨p'.fixedHeaderParser.header, y⟩) :
    DeliverAlike sort p q call := by
  have hret := h.ret
  have hec := h.ec
  unfold finish at hp hq
  rw [hret, hec, hheader] at hq
  cases hr : r.ret with
  | indeterminate =>
    rw [hr] at hp hq
    exact alike_of_indeterminate hp hq (hmore (h.more hr))
  | det b =>
    rw [hr] at hp hq
    cases b with
    | false => exact alike_of_false hp hq hleft
    | true =>
      refine alike_of_true hp hq ?_ ⟨hleft.1, hleft.2, hleft.3⟩
      simp [hdone (h.done hr)]

/-! ### One call, by status -/

/-- The call that completes the fixed header. -/
theorem alike_dispatch {p' q' : MQTTParser} (hp : p.parse sort call none = p'.dispatch none)
    (hq : q.parse sort call none = q'.dispatch none)
    (hheader : q'.fixedHeaderParser = p'.fixedHeaderParser) (hleft : Leftovers p' q') :
    DeliverAlike sort p q call := by
  have ht : q'.fixedHeaderParser.header.controlPacketType =
      p'.fixedHeaderParser.header.controlPacketType := by rw [hheader]
  cases htype : p'.fixedHeaderParser.header.controlPacketType with
  | connect =>
    rw [dispatch_connect htype] at hp
    rw [dispatch_connect (ht.trans htype), hheader] at hq
    exact alike_of_indeterminate hp hq ⟨rfl, rfl, ⟨hleft.1, hleft.2, hleft.3⟩, .mk .protocolName⟩
  | connack =>
    rw [dispatch_connack htype] at hp
    rw [dispatch_connack (ht.trans htype)] at hq
    exact alike_of_indeterminate hp hq ⟨rfl, hheader, ⟨hleft.1, hleft.2, hleft.3⟩, .flag⟩
  | publish =>
    rw [dispatch_publish htype] at hp
    rw [dispatch_publish (ht.trans htype), hheader] at hq
    exact alike_of_indeterminate hp hq ⟨rfl, rfl, ⟨hleft.1, hleft.2, hleft.3⟩, .mk .topicName⟩
  | subscribe =>
    rw [dispatch_subscribe htype] at hp
    rw [dispatch_subscribe (ht.trans htype), hheader] at hq
    exact alike_of_indeterminate hp hq ⟨rfl, rfl, ⟨hleft.1, hleft.2, hleft.3⟩, .mk .start⟩
  | suback =>
    rw [dispatch_suback htype] at hp
    rw [dispatch_suback (ht.trans htype), hheader] at hq
    exact alike_of_indeterminate hp hq ⟨rfl, rfl, ⟨hleft.1, hleft.2, hleft.3⟩, .mk .start⟩
  | pingreq | pingresp | disconnect =>
    rw [dispatch_bodyless (by rw [htype, bodyless])] at hp
    rw [dispatch_bodyless (by rw [ht.trans htype, bodyless]), hheader] at hq
    exact alike_of_true hp hq rfl ⟨hleft.1, hleft.2, hleft.3⟩
  | none | reserved | puback | pubrec | pubrel | pubcomp | unsubscribe | unsuback =>
    unfold dispatch at hp hq
    simp only [htype] at hp
    simp only [ht.trans htype] at hq
    exact alike_of_false hp hq hleft

/-- A byte of the fixed header. -/
theorem Related.deliver_start (h : Related p q) (hs : p.status = .start) :
    DeliverAlike sort p q call := by
  obtain ⟨hstatus, hheader, hleft, -⟩ := h
  have hs' := hstatus.trans hs
  have hsame :
      q.fixedHeaderParser.parse call.byte none = p.fixedHeaderParser.parse call.byte none := by
    rw [hheader]
  rcases (p.fixedHeaderParser.parse_agrees call.byte).cases with ⟨hr, hec⟩ | ⟨hr, hec⟩ | ⟨hr, hec⟩
  · have hp : p.parse sort call none = _ := parse_start_indeterminate hs hr
    have hq : q.parse sort call none = _ := parse_start_indeterminate hs' (hsame ▸ hr)
    rw [hsame] at hq
    refine alike_of_indeterminate hp hq ⟨hstatus, rfl, ⟨hleft.1, hleft.2, hleft.3⟩, ?_⟩
    simp [InUse, hs]
  · have hp : p.parse sort call none = _ := parse_start_false hs hr
    have hq : q.parse sort call none = _ := parse_start_false hs' (hsame ▸ hr)
    rw [hsame] at hq
    exact alike_of_false hp hq ⟨hleft.1, hleft.2, hleft.3⟩
  · have hp : p.parse sort call none = _ := parse_start_true hs hr
    have hq : q.parse sort call none = _ := parse_start_true hs' (hsame ▸ hr)
    rw [hec] at hp
    rw [hsame, hec] at hq
    exact alike_dispatch hp hq rfl ⟨hleft.1, hleft.2, hleft.3⟩

/-- A PUBLISH packet whose bodies agree in what it carries. -/
theorem carried_publish {header : FixedHeader} {a b : PublishMembers}
    (h : PublishMembers.Done (headerQoS header) a b) :
    (⟨header, .publish a.packet⟩ : ControlPacket).carried =
      ControlPacket.carried ⟨header, .publish b.packet⟩ := by
  obtain ⟨i, hb, hi⟩ := h
  unfold ControlPacket.carried
  by_cases hqos : (headerQoS header).value > QoSLevel.atMostOnce.value
  · rw [hb, hi hqos]
  · unfold headerQoS at hqos
    simp only [if_neg hqos, hb]

/-- **One byte for two related parsers.** -/
theorem Related.deliver (h : Related p q) (hstale : ¬ p.Stale call) :
    DeliverAlike sort p q call := by
  obtain ⟨hstatus, hheader, hleft, hinUse⟩ := h
  unfold Stale at hstale
  unfold InUse at hinUse
  cases hs : p.status with
  | start => exact deliver_start ⟨hstatus, hheader, hleft, by simp [InUse, hs]⟩ hs
  | connect =>
    simp only [hs] at hinUse
    have hcall : ParseResult.Alike (BodyParser.Paired ConnectMembers.Rel)
        (fun p q => ConnectMembers.Done p.own q.own) (fun p q => ConnectMembers.Left p.own q.own)
        (ConnectParser.parse call.uuid p.connectParser call.byte none)
        (ConnectParser.parse call.uuid q.connectParser call.byte none) := by
      refine hinUse.parse hleft.connect (fun p q hleft => hleft) ?_
      intro n a b hlength hp hq hab
      subst hp hq
      exact hab.switch hleft.connect (fun hown => hstale (.inl ⟨hs, hlength, hown⟩)) call.uuid n
    refine alike_finish hcall (parse_connect hs) (parse_connect (hstatus.trans hs)) hheader
      ⟨hcall.left, hleft.subscribe, hleft.subAck⟩ ?_ ?_
    · intro hmore
      refine ⟨hstatus, hheader, ⟨hcall.left, hleft.subscribe, hleft.subAck⟩, ?_⟩
      simpa [InUse, hs] using hmore
    · intro hdone
      rw [show _ = _ from hdone]
  | connAck =>
    simp only [hs] at hinUse
    have hcall := hinUse.parse call.byte
    refine alike_finish hcall (parse_connAck hs) (parse_connAck (hstatus.trans hs)) hheader
      ⟨hleft.connect, hleft.subscribe, hleft.subAck⟩ ?_ ?_
    · intro hmore
      refine ⟨hstatus, hheader, ⟨hleft.connect, hleft.subscribe, hleft.subAck⟩, ?_⟩
      simpa [InUse, hs] using hmore
    · intro hdone
      rw [show _ = _ from hdone]
  | publish =>
    simp only [hs] at hinUse
    have hcall : ParseResult.Alike
        (BodyParser.Paired (PublishMembers.Rel (headerQoS p.fixedHeaderParser.header)))
        (fun a b => PublishMembers.Done (headerQoS p.fixedHeaderParser.header) a.own b.own)
        (fun p q => PublishMembers.Left p.own q.own)
        (PublishParser.parse p.publishParser call.byte none)
        (PublishParser.parse q.publishParser call.byte none) := by
      refine hinUse.parse trivial (fun p q _ => trivial) ?_
      intro n a b _ _ _ hab
      exact hab.switch n call.byte
    refine alike_finish hcall (parse_publish hs) (parse_publish (hstatus.trans hs)) hheader
      ⟨hleft.connect, hleft.subscribe, hleft.subAck⟩ ?_ ?_
    · intro hmore
      refine ⟨hstatus, hheader, ⟨hleft.connect, hleft.subscribe, hleft.subAck⟩, ?_⟩
      simpa [InUse, hs] using hmore
    · intro hdone
      exact carried_publish hdone
  | subscribe =>
    simp only [hs] at hinUse
    have hcall : ParseResult.Alike (BodyParser.Paired SubscribeMembers.Rel)
        (fun p q => SubscribeMembers.Done p.own q.own)
        (fun p q => SubscribeMembers.Left p.own q.own)
        (SubscribeParser.parse sort p.subscribeParser call.byte none)
        (SubscribeParser.parse sort q.subscribeParser call.byte none) := by
      refine hinUse.parse hleft.subscribe (fun p q hleft => hleft) ?_
      intro n a b hlength hp hq hab
      subst hp hq
      exact hab.switch hleft.subscribe (fun hown => hstale (.inr (.inl ⟨hs, hlength, hown⟩)))
        sort n call.byte
    refine alike_finish hcall (parse_subscribe hs) (parse_subscribe (hstatus.trans hs)) hheader
      ⟨hleft.connect, hcall.left, hleft.subAck⟩ ?_ ?_
    · intro hmore
      refine ⟨hstatus, hheader, ⟨hleft.connect, hcall.left, hleft.subAck⟩, ?_⟩
      simpa [InUse, hs] using hmore
    · intro hdone
      rw [show _ = _ from hdone]
  | subAck =>
    simp only [hs] at hinUse
    have hcall : ParseResult.Alike (BodyParser.Paired SubAckMembers.Rel)
        (fun p q => SubAckMembers.Done p.own q.own) (fun p q => SubAckMembers.Left p.own q.own)
        (SubAckParser.parse p.subAckParser call.byte none)
        (SubAckParser.parse q.subAckParser call.byte none) := by
      refine hinUse.parse hleft.subAck (fun p q hleft => hleft) ?_
      intro n a b hlength hp hq hab
      subst hp hq
      exact hab.switch hleft.subAck (fun hown => hstale (.inr (.inr ⟨hs, hlength, hown⟩)))
        n call.byte
    refine alike_finish hcall (parse_subAck hs) (parse_subAck (hstatus.trans hs)) hheader
      ⟨hleft.connect, hleft.subscribe, hcall.left⟩ ?_ ?_
    · intro hmore
      refine ⟨hstatus, hheader, ⟨hleft.connect, hleft.subscribe, hcall.left⟩, ?_⟩
      simpa [InUse, hs] using hmore
    · intro hdone
      rw [show _ = _ from hdone]
  | ready => exact alike_of_false (parse_ready hs) (parse_ready (hstatus.trans hs)) hleft

/-- A parser between two packets is related to a new one, whatever its body
parsers have read before. -/
theorem related_new (hs : p.status = .start) (hheader : p.fixedHeaderParser = .reset) :
    Related p new :=
  ⟨hs.symm, hheader.symm, ⟨⟨.nil _, .nil _, .nil _, .nil _⟩, .nil _, .nil _⟩, by simp [InUse, hs]⟩

/-- The parser is between two packets before the frame, and no byte of the frame
starts to use what an earlier packet has left in a body parser. -/
def Isolated (sort : TopicFilters → TopicFilters) (p : MQTTParser) (frame : List Call) : Prop :=
  p.status = .start ∧ p.fixedHeaderParser = .reset ∧
    (deliver sort).Along (fun p call => ¬ p.Stale call) p frame

instance (sort : TopicFilters → TopicFilters) (p : MQTTParser) (frame : List Call) :
    Decidable (Isolated sort p frame) :=
  inferInstanceAs (Decidable (_ ∧ _ ∧ _))

/-- A frame for a used parser, and for a new one. -/
theorem Isolated.frameResults_eq {frame : List Call} (h : Isolated sort p frame) :
    frameResults sort p frame = frameResults sort new frame := by
  obtain ⟨hs, hheader, hfresh⟩ := h
  refine Machine.simulates_along Delivery.carried Related ?_ (related_new hs hheader) hfresh
  intro p q call hpq hstale
  exact hpq.deliver hstale

end MQTTParser

/-! ## §5 Frames do not leak into each other -/

/-- **The results and packets of the frames of a run are those of each frame
alone, if all frames are isolated.** -/
theorem frames_isolated (sort : TopicFilters → TopicFilters) (frames : List (List Call))
    (h : (MQTTParser.frames sort).Along (MQTTParser.Isolated sort) .new frames) :
    (MQTTParser.frames sort).outputs .new frames =
      frames.map (MQTTParser.frameResults sort .new) :=
  Machine.outputs_eq_map_along (fun _ _ hframe => hframe.frameResults_eq) h

/-- A SUBSCRIBE packet for one filter of one character. -/
def subscribeFrame (filter : UInt8) : List Call :=
  callsFor [0x82, 6, 0, 1, 0, 1, filter, 0]

/-- What `std::sort` does with one or two filters: insertion by `operator<`. -/
def sortFilters (filters : TopicFilters) : TopicFilters :=
  filters.insertionSort fun a b => a.lt b

/-- The second of two SUBSCRIBE packets is delivered with the filter of the
first. -/
theorem frames_leak :
    (MQTTParser.frames sortFilters).outputs .new [subscribeFrame 0x61, subscribeFrame 0x62] ≠
      [subscribeFrame 0x61, subscribeFrame 0x62].map (MQTTParser.frameResults sortFilters .new) := by
  decide

/-- Different packets behind each other. -/
theorem frames_isolated_ping :
    (MQTTParser.frames sortFilters).outputs .new [subscribeFrame 0x61, callsFor [0xC0, 0]] =
      [subscribeFrame 0x61, callsFor [0xC0, 0]].map (MQTTParser.frameResults sortFilters .new) :=
  frames_isolated sortFilters _ (by decide)

end Acatl.Mqtt

/-
Acatl.Mqtt.ParserFrames — where a packet ends, for `MQTTParser` and for its
fixed header.

`readHeader` is the fixed header at the front of a run, as `FixedHeaderParser`
accepts it, with the calls behind it. `run_header` cuts a run of the whole
parser there: until the header is complete every call is undecided, and the
call that completes it is `dispatch`.

  `accepted_at_boundary_iff`   a packet is accepted at the end of its frame
                               for which packet types and lengths.
-/
import Acatl.Mqtt.ParserResults

namespace Acatl.Mqtt

open Acatl.Lib

/-! ## §1 The fixed header of a run -/

/-- The fixed header the calls begin with, and the calls behind it. -/
def readHeader : FixedHeaderParser → List Call → Option (FixedHeader × List Call)
  | _, [] => none
  | p, call :: calls =>
    let r := p.parse call.byte none
    if r.ret.isTrue then some (r.parser.header, calls)
    else if r.ret.isFalse then none
    else readHeader r.parser calls

/-- The fixed header a sequence of calls begins with. -/
def fixedHeader (calls : List Call) : Option (FixedHeader × List Call) :=
  readHeader .reset calls

namespace MQTTParser

/-- **A run up to the end of the fixed header.** -/
theorem run_header (sort : TopicFilters → TopicFilters) {header : FixedHeader}
    {body : List Call} : ∀ (calls : List Call) (p : MQTTParser), p.status = .start →
    readHeader p.fixedHeaderParser calls = some (header, body) →
    ∃ front last hp, calls = front ++ last :: body ∧ hp.header = header ∧ hp.status = .ready ∧
      (∀ a ∈ (machine sort).outputs p front, a.1 = .indeterminate) ∧
      ((machine sort).after p front).parse sort last none =
        ({ p with fixedHeaderParser := hp }).dispatch none := by
  intro calls
  induction calls with
  | nil => intro p _ h; simp [readHeader] at h
  | cons call calls ih =>
    intro p hs h
    rw [readHeader] at h
    rcases (p.fixedHeaderParser.parse_agrees call.byte).cases with ⟨hr, hec⟩ | ⟨hr, hec⟩ | ⟨hr, hec⟩
    · simp only [hr, Tribool.isTrue_indeterminate, Tribool.isFalse_indeterminate,
        Bool.false_eq_true, if_false] at h
      have hstep : p.parse sort call none = ⟨.indeterminate, none, { p with
          fixedHeaderParser := (p.fixedHeaderParser.parse call.byte none).parser }⟩ := by
        rw [parse_start_indeterminate hs hr, hec]
      obtain ⟨front, last, hp, hcalls, hheader, hready, hfront, hlast⟩ :=
        ih (machine sort p call).2 (by simp [machine, ParseResult.answer, hstep, hs])
          (by simpa [machine, ParseResult.answer, hstep] using h)
      refine ⟨call :: front, last, hp, by rw [hcalls]; rfl, hheader, hready, ?_, ?_⟩
      · intro a ha
        rcases List.mem_cons.mp ha with rfl | ha
        · simp [machine, ParseResult.answer, hstep]
        · exact hfront a ha
      · rw [Machine.after_cons, hlast]
        simp [machine, ParseResult.answer, hstep]
    · simp [hr] at h
    · simp only [hr, Tribool.isTrue_det, if_true, Option.some.injEq, Prod.mk.injEq] at h
      obtain ⟨hheader, rfl⟩ := h
      refine ⟨[], call, _, rfl, hheader, FixedHeaderParser.ready_of_true hr, by simp, ?_⟩
      rw [Machine.after_nil, parse_start_true hs hr, hec]

/-! ## §2 The bytes of the body still to come -/

/-- How many calls the body parser in use takes before it can accept. -/
def remaining (p : MQTTParser) : Option Nat :=
  match p.status with
  | .connect => some p.connectParser.length
  | .publish => some p.publishParser.length
  | .subscribe => some p.subscribeParser.length
  | .subAck => some p.subAckParser.length
  | .connAck =>
    match p.connAckParser.status with
    | .connectAcknowledgeFlag => some 2
    | .connectReturnCode => some 1
    | .ready => some 0
  | .start | .ready => none

end MQTTParser

/-! ### The body parsers count every byte -/

/-- A switch that leaves `_length` alone. -/
def BodyParser.KeepsLength {α : Type}
    (switch : BodyParser α → UInt8 → ErrorCode → ErrorCode × BodyParser α) : Prop :=
  ∀ p byte ec, (switch p byte ec).2.length = p.length

theorem BodyParser.parse_length {α : Type}
    {switch : BodyParser α → UInt8 → ErrorCode → ErrorCode × BodyParser α}
    (hs : KeepsLength switch) {overlong : BodyParser α → BodyParser α}
    (ho : ∀ p, (overlong p).length = p.length) (p : BodyParser α) (byte : UInt8) (ec : ErrorCode) :
    (parse switch overlong p byte ec).parser.length = p.length - 1 ∧
      ((parse switch overlong p byte ec).ret = .det true → p.length = 1) := by
  unfold parse
  split
  · rename_i hlength
    exact ⟨by simp [hlength], by simp⟩
  · rename_i hlength
    have hkeep := hs { p with length := p.length - 1 } byte ec
    dsimp only at hkeep ⊢
    split
    · exact ⟨by rw [ho, hkeep], by simp⟩
    · rename_i hdone
      refine ⟨hkeep, fun htrue => ?_⟩
      have htrue : (switch { p with length := p.length - 1 } byte ec).2.ret = .det true := htrue
      have hzero : (switch { p with length := p.length - 1 } byte ec).2.length = 0 := by
        by_contra hne
        exact hdone ⟨by simp [htrue], hne⟩
      omega

theorem ConnectParser.readString_length (p : ConnectParser) (byte : UInt8) (ec : ErrorCode)
    {done : ConnectParser → Bytes → ErrorCode → ErrorCode × ConnectParser}
    (hdone : ∀ q string ec, (done q string ec).2.length = q.length) :
    (readString p byte ec done).2.length = p.length := by
  unfold readString
  dsimp only
  split
  · rfl
  · split
    · rfl
    · exact hdone _ _ _

theorem ConnectParser.clientIdDone_length (uuid : Bytes) (p : ConnectParser) (string : Bytes)
    (ec : ErrorCode) : (clientIdDone uuid p string ec).2.length = p.length := by
  unfold clientIdDone storeClientId afterClientId fail
  by_cases hid : string = []
  · cases hclean : p.own.packet.cleanSession <;> cases hwill : p.own.packet.willFlag <;>
      cases huser : p.own.packet.userNameFlag <;> simp [hid, hclean, hwill, huser]
  · cases hwill : p.own.packet.willFlag <;> cases huser : p.own.packet.userNameFlag <;>
      simp [hid, hwill, huser]

theorem ConnectParser.keepsLength (uuid : Bytes) : BodyParser.KeepsLength (switch uuid) := by
  intro p byte ec
  unfold switch
  cases p.own.status with
  | protocolName =>
    refine readString_length p byte ec fun q string ec => ?_
    split <;> rfl
  | protocolLevel => dsimp only; split <;> rfl
  | connectFlags => dsimp only; split <;> rfl
  | keepAliveMsb => rfl
  | keepAliveLsb => rfl
  | clientId => exact readString_length p byte ec (clientIdDone_length uuid)
  | willTopic => exact readString_length p byte ec fun q string ec => rfl
  | willMessage =>
    refine readString_length p byte ec fun q string ec => ?_
    dsimp only
    split <;> rfl
  | username => exact readString_length p byte ec fun q string ec => rfl
  | password => exact readString_length p byte ec fun q string ec => rfl
  | ready => rfl

theorem PublishParser.keepsLength : BodyParser.KeepsLength PublishParser.switch := by
  intro p byte ec
  unfold PublishParser.switch finish
  cases p.own.status with
  | topicName =>
    dsimp only
    split
    · rfl
    · split
      · rfl
      · split <;> rfl
  | packetIdentifier =>
    dsimp only
    split
    · rfl
    · split
      · split <;> rfl
      · rfl
  | payload => dsimp only; split <;> rfl
  | ready => rfl

theorem SubscribeParser.keepsLength (sort : TopicFilters → TopicFilters) :
    BodyParser.KeepsLength (SubscribeParser.switch sort) := by
  intro p byte ec
  unfold SubscribeParser.switch finish
  cases p.own.status with
  | packetIdentifier =>
    dsimp only
    split
    · rfl
    · split <;> rfl
  | topicFilter =>
    dsimp only
    split
    · rfl
    · split <;> rfl
  | qoS =>
    dsimp only
    split
    · rfl
    · split
      · rfl
      · split <;> rfl
  | ready => rfl

theorem SubAckParser.keepsLength : BodyParser.KeepsLength SubAckParser.switch := by
  intro p byte ec
  unfold SubAckParser.switch finish
  cases p.own.status with
  | packetIdentifier =>
    dsimp only
    split
    · rfl
    · split
      · split <;> rfl
      · rfl
  | qoS =>
    dsimp only
    split
    · rfl
    · split <;> rfl
  | ready => rfl

theorem ConnectParser.parse_length (uuid : Bytes) (p : ConnectParser) (byte : UInt8)
    (ec : ErrorCode) : (parse uuid p byte ec).parser.length = p.length - 1 ∧
      ((parse uuid p byte ec).ret = .det true → p.length = 1) :=
  BodyParser.parse_length (keepsLength uuid) (fun _ => rfl) p byte ec

theorem PublishParser.parse_length (p : PublishParser) (byte : UInt8) (ec : ErrorCode) :
    (parse p byte ec).parser.length = p.length - 1 ∧
      ((parse p byte ec).ret = .det true → p.length = 1) :=
  BodyParser.parse_length keepsLength (fun _ => rfl) p byte ec

theorem SubscribeParser.parse_length (sort : TopicFilters → TopicFilters) (p : SubscribeParser)
    (byte : UInt8) (ec : ErrorCode) : (parse sort p byte ec).parser.length = p.length - 1 ∧
      ((parse sort p byte ec).ret = .det true → p.length = 1) := by
  unfold parse
  refine BodyParser.parse_length (keepsLength sort) ?_ p byte ec
  intro q
  rfl

theorem SubAckParser.parse_length (p : SubAckParser) (byte : UInt8) (ec : ErrorCode) :
    (parse p byte ec).parser.length = p.length - 1 ∧
      ((parse p byte ec).ret = .det true → p.length = 1) :=
  BodyParser.parse_length keepsLength (fun _ => rfl) p byte ec

theorem ConnectAckParser.parse_remaining (p : ConnectAckParser) (byte : UInt8) (ec : ErrorCode) :
    (p.status = .connectAcknowledgeFlag ∧ (p.parse byte ec).ret ≠ .det true ∧
      ((p.parse byte ec).parser.status = .connectReturnCode ∨
        (p.parse byte ec).parser.status = .ready)) ∨
    (p.status = .connectReturnCode ∧ (p.parse byte ec).parser.status = .ready) ∨
    (p.status = .ready ∧ (p.parse byte ec).ret ≠ .det true ∧
      (p.parse byte ec).parser.status = .ready) := by
  unfold ConnectAckParser.parse
  cases hs : p.status with
  | connectAcknowledgeFlag => by_cases hbyte : byte &&& 0xFE ≠ 0 <;> simp [hbyte]
  | connectReturnCode => by_cases hbyte : byte > 5 <;> simp [hbyte]
  | ready => simp [hs]

namespace MQTTParser

/-- The call of a parser that counts, as `MQTTParser` passes it on. -/
theorem counted_step {P : Type} {q : MQTTParser} {r : ParseResult P} {body : PacketBody}
    {length : Nat} (hq : q.remaining = some (length - 1)) (htrue : r.ret = .det true → length = 1) :
    ((q.finish r body).ret = .det true → length = 1) ∧
      ((q.finish r body).ret ≠ .det true →
        ∃ k, (q.finish r body).parser.remaining = some k ∧ (k = 0 ∨ k + 1 = length)) := by
  rw [finish_ret]
  refine ⟨htrue, fun hret => ?_⟩
  rw [finish_keeps hret]
  exact ⟨length - 1, hq, by omega⟩

/-- One call in a body: it is accepted with its last byte only, and until then
one byte less is to come, or none after a failure. -/
theorem remaining_step {p : MQTTParser} {length : Nat} (hk : p.remaining = some length)
    (sort : TopicFilters → TopicFilters) (call : Call) :
    ((p.parse sort call none).ret = .det true → length = 1) ∧
      ((p.parse sort call none).ret ≠ .det true →
        ∃ k, (p.parse sort call none).parser.remaining = some k ∧ (k = 0 ∨ k + 1 = length)) := by
  unfold remaining at hk
  cases hs : p.status with
  | start => simp [hs] at hk
  | ready => simp [hs] at hk
  | connect =>
    simp only [hs, Option.some.injEq] at hk
    obtain ⟨hlength, htrue⟩ := ConnectParser.parse_length call.uuid p.connectParser call.byte none
    rw [parse_connect hs]
    exact counted_step (by simp [remaining, hs, hlength, hk]) fun h => hk ▸ htrue h
  | publish =>
    simp only [hs, Option.some.injEq] at hk
    obtain ⟨hlength, htrue⟩ := PublishParser.parse_length p.publishParser call.byte none
    rw [parse_publish hs]
    exact counted_step (by simp [remaining, hs, hlength, hk]) fun h => hk ▸ htrue h
  | subscribe =>
    simp only [hs, Option.some.injEq] at hk
    obtain ⟨hlength, htrue⟩ := SubscribeParser.parse_length sort p.subscribeParser call.byte none
    rw [parse_subscribe hs]
    exact counted_step (by simp [remaining, hs, hlength, hk]) fun h => hk ▸ htrue h
  | subAck =>
    simp only [hs, Option.some.injEq] at hk
    obtain ⟨hlength, htrue⟩ := SubAckParser.parse_length p.subAckParser call.byte none
    rw [parse_subAck hs]
    exact counted_step (by simp [remaining, hs, hlength, hk]) fun h => hk ▸ htrue h
  | connAck =>
    simp only [hs] at hk
    rw [parse_connAck hs, finish_ret]
    rcases p.connAckParser.parse_remaining call.byte none with
      ⟨hflag, hret, hnext⟩ | ⟨hcode, hnext⟩ | ⟨hready, hret, hnext⟩
    · refine ⟨fun h => absurd h hret, fun _ => ?_⟩
      obtain rfl : length = 2 := by simpa [hflag] using hk.symm
      rw [finish_keeps hret]
      rcases hnext with hnext | hnext <;> simp [remaining, hs, hnext]
    · obtain rfl : length = 1 := by simpa [hcode] using hk.symm
      refine ⟨fun _ => rfl, fun hret => ?_⟩
      rw [finish_keeps hret]
      simp [remaining, hs, hnext]
    · refine ⟨fun h => absurd h hret, fun _ => ?_⟩
      rw [finish_keeps hret]
      simp [remaining, hs, hnext]

/-- A body is accepted by the call that takes its last byte. -/
theorem accepted_at_end (sort : TopicFilters → TopicFilters) {last : Call} (calls : List Call) :
    ∀ (p : MQTTParser) (k : Nat), p.remaining = some k →
    (∀ a ∈ (machine sort).outputs p calls, a.1 ≠ .det true) →
    (((machine sort).after p calls).parse sort last none).ret = .det true →
    calls.length + 1 = k := by
  induction calls with
  | nil => intro p k hk _ htrue; exact ((remaining_step hk sort last).1 htrue).symm
  | cons call calls ih =>
    intro p k hk hbefore htrue
    obtain ⟨k', hk', hor⟩ := (remaining_step hk sort call).2 (hbefore _ List.mem_cons_self)
    have hrest := ih _ k' hk' (fun a ha => hbefore a (List.mem_cons_of_mem _ ha)) htrue
    rw [List.length_cons]
    omega

/-! ## §3 Accepted at the end of the frame -/

/-- The number of body bytes with which the parser accepts a packet: the
remaining length, except that CONNACK always takes two bytes and PINGREQ,
PINGRESP and DISCONNECT none. -/
def acceptLength (header : FixedHeader) : Nat :=
  match header.controlPacketType with
  | .connack => 2
  | .pingreq | .pingresp | .disconnect => 0
  | _ => header.length.toNat

/-- What `dispatch` leaves to be read. -/
theorem dispatch_remaining (p : MQTTParser) :
    ((p.dispatch none).ret = .det true ∧ acceptLength p.fixedHeaderParser.header = 0) ∨
    ((p.dispatch none).ret = .indeterminate ∧ (p.dispatch none).parser.remaining =
      some (acceptLength p.fixedHeaderParser.header)) ∨
    ((p.dispatch none).ret = .det false ∧
      ¬ Handled p.fixedHeaderParser.header.controlPacketType ∧ (p.dispatch none).parser = p) := by
  by_cases h : Handled p.fixedHeaderParser.header.controlPacketType
  · cases ht : p.fixedHeaderParser.header.controlPacketType with
    | connect => simp [dispatch_connect ht, remaining, acceptLength, ht, ConnectParser.reset]
    | connack => simp [dispatch_connack ht, remaining, acceptLength, ht, ConnectAckParser.reset]
    | publish => simp [dispatch_publish ht, remaining, acceptLength, ht, PublishParser.reset]
    | subscribe => simp [dispatch_subscribe ht, remaining, acceptLength, ht, SubscribeParser.reset]
    | suback => simp [dispatch_suback ht, remaining, acceptLength, ht, SubAckParser.reset]
    | pingreq | pingresp | disconnect =>
      rw [dispatch_bodyless (by rw [ht, bodyless])]
      simp [acceptLength, ht]
    | none | reserved | puback | pubrec | pubrel | pubcomp | unsubscribe | unsuback =>
      simp [ht, Handled] at h
  · obtain ⟨e, he⟩ := dispatch_unhandled h none
    exact .inr (.inr ⟨by rw [he], h, by rw [he]⟩)

/-- A dead parser accepts nothing. -/
theorem Dead.not_accepts {p : MQTTParser} (h : p.Dead) (sort : TopicFilters → TopicFilters)
    (calls : List Call) (call : Call) :
    (((machine sort).after p calls).parse sort call none).ret ≠ .det true := by
  have hafter : ((machine sort).after p calls).Dead :=
    Machine.inv_after Dead (fun q c hq => (hq.parse sort c none).2) h calls
  simp [(hafter.parse sort call none).1]

/-- Up to the first acceptance, a packet with a complete header takes as many
body bytes as `acceptLength` says. -/
theorem body_length_of_accepted (sort : TopicFilters → TopicFilters) (p : MQTTParser)
    (calls : List Call) (call : Call) {header : FixedHeader} {body : List Call}
    (hbefore : ∀ a ∈ (machine sort).outputs p.reset calls, a.1 ≠ .det true)
    (htrue : (((machine sort).after p.reset calls).parse sort call none).ret = .det true)
    (hheader : fixedHeader (calls ++ [call]) = some (header, body)) :
    body.length = acceptLength header := by
  obtain ⟨front, last, hp, hcalls, rfl, hready, -, hlast⟩ :=
    run_header sort (calls ++ [call]) p.reset rfl hheader
  have hdispatch := dispatch_remaining { p.reset with fixedHeaderParser := hp }
  rw [← hlast] at hdispatch
  rcases List.eq_nil_or_concat body with rfl | ⟨body', call', rfl⟩
  · -- the call that completes the header is the one that accepts
    obtain ⟨rfl, hcall⟩ := List.append_inj' hcalls rfl
    obtain rfl := List.singleton_inj.mp hcall
    rcases hdispatch with ⟨-, hzero⟩ | ⟨hret, -⟩ | ⟨hret, -⟩
    · exact hzero.symm
    · simp [hret] at htrue
    · simp [hret] at htrue
  · have hsplit : calls ++ [call] = (front ++ last :: body') ++ [call'] := by simpa using hcalls
    obtain ⟨rfl, hcall⟩ := List.append_inj' hsplit rfl
    obtain rfl := List.singleton_inj.mp hcall
    rw [Machine.outputs_append, Machine.outputs_cons] at hbefore
    rw [Machine.after_append, Machine.after_cons] at htrue
    rcases hdispatch with ⟨hret, -⟩ | ⟨-, hk⟩ | ⟨-, hunhandled, hsame⟩
    · exact absurd hret (hbefore _ (List.mem_append_right _ List.mem_cons_self))
    · have hend := accepted_at_end sort body' _ _ hk
        (fun a ha => hbefore a (List.mem_append_right _ (List.mem_cons_of_mem _ ha))) htrue
      simpa using hend
    · have hdead : ((machine sort) ((machine sort).after p.reset front) last).2.Dead := by
        rw [machine, ParseResult.answer, hsame]
        exact .header rfl hready hunhandled
      exact absurd htrue (hdead.not_accepts sort body' call)

end MQTTParser

/-- The remaining length is the number of body bytes that the parser reads: two
for CONNACK, none for PINGREQ, PINGRESP and DISCONNECT. -/
def FixedHeader.LengthFits (header : FixedHeader) : Prop :=
  (header.controlPacketType = .connack → header.length.toNat = 2) ∧
  (header.controlPacketType = .pingreq ∨ header.controlPacketType = .pingresp ∨
    header.controlPacketType = .disconnect → header.length.toNat = 0)

theorem FixedHeader.lengthFits_iff (header : FixedHeader) :
    header.LengthFits ↔ MQTTParser.acceptLength header = header.length.toNat := by
  unfold LengthFits MQTTParser.acceptLength
  cases header.controlPacketType <;> simp [eq_comm]

/-- **A packet is accepted at the end of its frame if and only if it has a
complete fixed header with a length that fits.** -/
theorem accepted_at_boundary_iff (sort : TopicFilters → TopicFilters) (p : MQTTParser)
    (calls : List Call) (call : Call)
    (hbefore : ∀ a ∈ (MQTTParser.machine sort).outputs p.reset calls, a.1 ≠ .det true)
    (htrue : (((MQTTParser.machine sort).after p.reset calls).parse sort call none).ret =
      .det true) :
    (∃ header body, fixedHeader (calls ++ [call]) = some (header, body) ∧
      (calls ++ [call]).length =
        ((calls ++ [call]).length - body.length) + header.length.toNat) ↔
    ∃ header body, fixedHeader (calls ++ [call]) = some (header, body) ∧ header.LengthFits := by
  refine exists_congr fun header => exists_congr fun body => and_congr_right fun hheader => ?_
  have hbody := MQTTParser.body_length_of_accepted sort p calls call hbefore htrue hheader
  obtain ⟨front, last, hp, hcalls, -⟩ :=
    MQTTParser.run_header sort (calls ++ [call]) p.reset rfl hheader
  have hshort : body.length ≤ (calls ++ [call]).length := by
    rw [hcalls]
    simp
    omega
  rw [FixedHeader.lengthFits_iff, ← hbody]
  omega

/-- CONNACK with a remaining length of 3 is accepted one byte too early. -/
theorem accepted_too_early :
    (∀ a ∈ (MQTTParser.machine id).outputs MQTTParser.new.reset (callsFor [0x20, 3, 0]),
      a.1 ≠ .det true) ∧
    (((MQTTParser.machine id).after MQTTParser.new.reset (callsFor [0x20, 3, 0])).parse id
      ⟨0, []⟩ none).ret = .det true ∧
    ¬ ∃ header body, fixedHeader (callsFor [0x20, 3, 0, 0]) = some (header, body) ∧
      (callsFor [0x20, 3, 0, 0]).length =
        ((callsFor [0x20, 3, 0, 0]).length - body.length) + header.length.toNat := by
  refine ⟨by decide, by decide, ?_⟩
  rintro ⟨header, body, hheader, hlength⟩
  have hread : fixedHeader (callsFor [0x20, 3, 0, 0]) =
      some (⟨.connack, 0, 3⟩, callsFor [0, 0]) := by decide
  rw [hread, Option.some.injEq, Prod.mk.injEq] at hheader
  obtain ⟨rfl, rfl⟩ := hheader
  revert hlength
  decide

/-- The same packet with the length it should have. -/
theorem accepted_at_boundary_iff_connack :
    (∃ header body, fixedHeader (callsFor [0x20, 2, 0, 0]) = some (header, body) ∧
      (callsFor [0x20, 2, 0, 0]).length =
        ((callsFor [0x20, 2, 0, 0]).length - body.length) + header.length.toNat) ↔
    ∃ header body, fixedHeader (callsFor [0x20, 2, 0, 0]) = some (header, body) ∧
      header.LengthFits :=
  accepted_at_boundary_iff id .new (callsFor [0x20, 2, 0]) ⟨0, []⟩ (by decide) (by decide)

end Acatl.Mqtt

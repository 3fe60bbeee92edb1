/-
Acatl.Mqtt.FrameOutcomes — runs of `MQTTParser` over whole frames.

Behind the fixed header the parser ends as the parser for the body does
(`outcome_body`), and that one as `Acatl.Mqtt.BodyGrammar` says of the bytes.

  `frame_decided_iff`   which frames are accepted or refused with their last
                        byte at the latest.
  `header_of_reads`     an accepted frame has a header, and a body as long as
                        the parser reads for it; `reads_connect` and so on
                        say which bodies these are.
-/
import Acatl.Mqtt.BodyOutcomes

namespace Acatl.Mqtt

open Acatl.Lib

namespace MQTTParser

/-! ## §1 From the header on -/

/-- While a body parser is in use, it decides for the whole parser. `get` and
`put` are the member that holds it. -/
theorem outcome_body (sort : TopicFilters → TopicFilters) {Q : Type}
    (inner : Q → Call → ParseResult Q) (get : MQTTParser → Q) (put : MQTTParser → Q → MQTTParser)
    (body : Q → PacketBody) {status : MQTTParser.Status}
    (hparse : ∀ p call, p.status = status → p.parse sort call none =
      (put p (inner (get p) call).parser).finish (inner (get p) call)
        (body (inner (get p) call).parser))
    (hget : ∀ p q, get (put p q) = q) (hstatus : ∀ p q, (put p q).status = p.status)
    (hheader : ∀ p q, (put p q).fixedHeaderParser = p.fixedHeaderParser)
    {p : MQTTParser} (hs : p.status = status) (calls : List Call) :
    (outcome (machine sort) p calls).map (·.packet) =
      (outcome (fun q call => (inner q call).answer) (get p) calls).map fun q =>
        some ⟨p.fixedHeaderParser.header, body q⟩ := by
  refine outcome_inner _ _ (fun q r => q.status = status ∧ get q = r ∧
    q.fixedHeaderParser = p.fixedHeaderParser) ?_ ?_ ?_ ⟨hs, rfl, rfl⟩ calls
  · rintro q _ call ⟨hq, rfl, -⟩
    show (q.parse sort call none).ret = (inner (get q) call).ret
    rw [hparse q call hq, finish_ret]
  · rintro q _ call ⟨hq, rfl, hsame⟩ hret
    have hret : (inner (get q) call).ret ≠ .det true := by
      rw [show (inner (get q) call).ret = .indeterminate from hret]
      simp
    show (q.parse sort call none).parser.status = status ∧ _
    rw [machine, ParseResult.answer, hparse q call hq, finish_keeps hret]
    exact ⟨(hstatus _ _).trans hq, hget _ _, (hheader _ _).trans hsame⟩
  · rintro q _ call ⟨hq, rfl, hsame⟩ hret
    show (q.parse sort call none).parser.packet = _
    rw [hparse q call hq, finish_done hret, hheader, hsame]
    rfl

section

variable (sort : TopicFilters → TopicFilters) {p : MQTTParser}

/-- The packet of a body parser, with the header of the frame. -/
theorem map_packet {Q B : Type} {packet : Q → B} {o : Outcome Q} {o' : Outcome B}
    (h : o.map packet = o') (f : B → Option ControlPacket) :
    (o.map fun q => f (packet q)) = o'.map f := by
  rw [← h, Outcome.map_map]

theorem outcome_connect (hs : p.status = .connect) (calls : List Call) :
    (outcome (machine sort) p calls).map (·.packet) =
      (outcome ConnectParser.machine p.connectParser calls).map fun q =>
        some ⟨p.fixedHeaderParser.header, .connect q.own.packet⟩ :=
  outcome_body sort (fun q call => ConnectParser.parse call.uuid q call.byte none) (·.connectParser)
    (fun p q => { p with connectParser := q }) (fun q => .connect q.own.packet)
    (fun _ _ h => parse_connect h) (fun _ _ => rfl) (fun _ _ => rfl) (fun _ _ => rfl) hs calls

theorem outcome_connAck (hs : p.status = .connAck) (calls : List Call) :
    (outcome (machine sort) p calls).map (·.packet) =
      (outcome ConnectAckParser.machine p.connAckParser calls).map fun q =>
        some ⟨p.fixedHeaderParser.header, .connAck q.packet⟩ :=
  outcome_body sort (fun q call => ConnectAckParser.parse q call.byte none) (·.connAckParser)
    (fun p q => { p with connAckParser := q }) (fun q => .connAck q.packet)
    (fun _ _ h => parse_connAck h) (fun _ _ => rfl) (fun _ _ => rfl) (fun _ _ => rfl) hs calls

theorem outcome_publish (hs : p.status = .publish) (calls : List Call) :
    (outcome (machine sort) p calls).map (·.packet) =
      (outcome PublishParser.machine p.publishParser calls).map fun q =>
        some ⟨p.fixedHeaderParser.header, .publish q.own.packet⟩ :=
  outcome_body sort (fun q call => PublishParser.parse q call.byte none) (·.publishParser)
    (fun p q => { p with publishParser := q }) (fun q => .publish q.own.packet)
    (fun _ _ h => parse_publish h) (fun _ _ => rfl) (fun _ _ => rfl) (fun _ _ => rfl) hs calls

theorem outcome_subscribe (hs : p.status = .subscribe) (calls : List Call) :
    (outcome (machine sort) p calls).map (·.packet) =
      (outcome (SubscribeParser.machine sort) p.subscribeParser calls).map fun q =>
        some ⟨p.fixedHeaderParser.header, .subscribe q.own.packet⟩ :=
  outcome_body sort (fun q call => SubscribeParser.parse sort q call.byte none) (·.subscribeParser)
    (fun p q => { p with subscribeParser := q }) (fun q => .subscribe q.own.packet)
    (fun _ _ h => parse_subscribe h) (fun _ _ => rfl) (fun _ _ => rfl) (fun _ _ => rfl) hs calls

theorem outcome_subAck (hs : p.status = .subAck) (calls : List Call) :
    (outcome (machine sort) p calls).map (·.packet) =
      (outcome SubAckParser.machine p.subAckParser calls).map fun q =>
        some ⟨p.fixedHeaderParser.header, .subAck q.own.packet⟩ :=
  outcome_body sort (fun q call => SubAckParser.parse q call.byte none) (·.subAckParser)
    (fun p q => { p with subAckParser := q }) (fun q => .subAck q.own.packet)
    (fun _ _ h => parse_subAck h) (fun _ _ => rfl) (fun _ _ => rfl) (fun _ _ => rfl) hs calls

/-- How the run goes on when the fixed header is complete. -/
def afterHeader (p : MQTTParser) (body : List Call) : Outcome MQTTParser :=
  match (p.dispatch none).ret with
  | .indeterminate => outcome (machine sort) (p.dispatch none).parser body
  | .det true => .accepted (p.dispatch none).parser body
  | .det false => .refused

/-- **A run is the fixed header, and how the parser goes on from there**,
whatever follows the header. -/
theorem outcome_frame (p : MQTTParser) {calls body : List Call} {header : FixedHeader}
    (hheader : fixedHeader calls = some (header, body)) :
    ∃ front last hp, calls = front ++ last :: body ∧ hp.header = header ∧
      ∀ body', outcome (machine sort) p.reset (front ++ last :: body') =
        afterHeader sort { p.reset with fixedHeaderParser := hp } body' := by
  obtain ⟨front, last, hp, hcalls, hp_header, -, hfront, hlast⟩ :=
    run_header sort calls p.reset rfl hheader
  refine ⟨front, last, hp, hcalls, hp_header, fun body' => ?_⟩
  rw [outcome_append hfront, outcome, machine, ParseResult.answer, hlast]
  rfl

variable {header : FixedHeader} (hp : p.fixedHeaderParser.header = header) {body : List Call}

section

/-! Behind the header, with as many bytes as it says. -/

variable (hlength : body.length = header.length.toNat)

include hp hlength

theorem afterHeader_connect (ht : header.controlPacketType = .connect) :
    ∃ uuid, (afterHeader sort p body).map (·.packet) =
      (connectOutcome uuid p.connectParser.own.packet (body.map Call.byte)).map fun q =>
        some ⟨header, .connect q⟩ := by
  subst hp
  obtain ⟨uuid, hbody⟩ := ConnectParser.outcome_eq
    (ConnectParser.reset p.connectParser body.length).own rfl rfl body
  refine ⟨uuid, ?_⟩
  rw [afterHeader, dispatch_connect ht, ← hlength]
  exact (outcome_connect sort rfl body).trans
    (map_packet hbody fun q => some ⟨p.fixedHeaderParser.header, .connect q⟩)

theorem afterHeader_publish (ht : header.controlPacketType = .publish) :
    (afterHeader sort p body).map (·.packet) =
      (publishOutcome (.ofBits ((header.flags &&& 0x06) >>> 1))
        { p.publishParser.own.packet with payload := [] } (body.map Call.byte)).map fun q =>
        some ⟨header, .publish q⟩ := by
  subst hp
  have hbody := PublishParser.outcome_eq (PublishParser.reset p.publishParser
    (.ofBits ((p.fixedHeaderParser.header.flags &&& 0x06) >>> 1)) body.length).own rfl rfl rfl body
  rw [afterHeader, dispatch_publish ht, ← hlength]
  exact (outcome_publish sort rfl body).trans
    (map_packet hbody fun q => some ⟨p.fixedHeaderParser.header, .publish q⟩)

theorem afterHeader_subscribe (ht : header.controlPacketType = .subscribe) :
    (afterHeader sort p body).map (·.packet) =
      (subscribeOutcome sort p.subscribeParser.own.packet (body.map Call.byte)).map fun q =>
        some ⟨header, .subscribe q⟩ := by
  subst hp
  have hbody := SubscribeParser.outcome_eq sort
    (SubscribeParser.reset p.subscribeParser body.length).own rfl rfl body
  rw [afterHeader, dispatch_subscribe ht, ← hlength]
  exact (outcome_subscribe sort rfl body).trans
    (map_packet hbody fun q => some ⟨p.fixedHeaderParser.header, .subscribe q⟩)

theorem afterHeader_subAck (ht : header.controlPacketType = .suback) :
    (afterHeader sort p body).map (·.packet) =
      (subAckOutcome p.subAckParser.own.packet (body.map Call.byte)).map fun q =>
        some ⟨header, .subAck q⟩ := by
  subst hp
  have hbody := SubAckParser.outcome_eq
    (SubAckParser.reset p.subAckParser body.length).own rfl rfl body
  rw [afterHeader, dispatch_suback ht, ← hlength]
  exact (outcome_subAck sort rfl body).trans
    (map_packet hbody fun q => some ⟨p.fixedHeaderParser.header, .subAck q⟩)

end

/-! ## §2 Frames that are decided -/

include hp in
/-- **A body, from the call on that completes the fixed header.** -/
theorem afterHeader_decided (hlength : body.length = header.length.toNat) :
    afterHeader sort p body ≠ .undecided ↔ BodyDecides header (body.map Call.byte) := by
  -- an outcome for the bytes, and when it is decided
  have hbody : ∀ {A : Type} {o : Outcome A} {f : A → Option ControlPacket} {decides : Prop},
      (afterHeader sort p body).map (·.packet) = o.map f → (o ≠ .undecided ↔ decides) →
      (afterHeader sort p body ≠ .undecided ↔ decides) := by
    intro A o f decides hmap hdecides
    rw [← hdecides, ne_eq, ← Outcome.map_eq_undecided, hmap, Outcome.map_eq_undecided]
  unfold BodyDecides
  cases ht : header.controlPacketType with
  | connect =>
    obtain ⟨uuid, hmap⟩ := afterHeader_connect sort hp hlength ht
    exact hbody hmap (connectOutcome_decided uuid _ _)
  | connack =>
    subst hp
    refine Iff.trans ?_ (ConnectAckParser.decided_iff p.connAckParser.reset rfl body)
    rw [afterHeader, dispatch_connack ht, decided_iff_outcome]
    dsimp only
    rw [ne_eq, ← Outcome.map_eq_undecided, outcome_connAck sort rfl, Outcome.map_eq_undecided]
  | publish =>
    exact hbody (afterHeader_publish sort hp hlength ht) (publishOutcome_decided _ _ _)
  | subscribe =>
    exact hbody (afterHeader_subscribe sort hp hlength ht) (subscribeOutcome_decided sort _ _)
  | suback => exact hbody (afterHeader_subAck sort hp hlength ht) (subAckOutcome_decided _ _)
  | pingreq | pingresp | disconnect =>
    subst hp
    rw [afterHeader, dispatch_bodyless (by rw [ht, bodyless])]
    simp
  | none | reserved | puback | pubrec | pubrel | pubcomp | unsubscribe | unsuback =>
    subst hp
    obtain ⟨e, he⟩ := dispatch_unhandled (p := p) (by simp [ht, Handled]) none
    rw [afterHeader, he]
    simp

end

end MQTTParser

/-- **A frame is accepted or refused with its last byte at the latest if and
only if its body does not end too early.** -/
theorem frame_decided_iff (sort : TopicFilters → TopicFilters) (p : MQTTParser) (calls : List Call)
    {header : FixedHeader} {body : List Call} (hheader : fixedHeader calls = some (header, body))
    (hlength : header.length.toNat ≤ body.length) :
    (MQTTParser.machine sort).Decided Determinate p.reset
        (calls.take (calls.length - body.length + header.length.toNat)) ↔
      BodyDecides header ((body.take header.length.toNat).map Call.byte) := by
  obtain ⟨front, last, hp, rfl, hp_header, hframe⟩ := MQTTParser.outcome_frame sort p hheader
  have htake : (front ++ last :: body).take
      ((front ++ last :: body).length - body.length + header.length.toNat) =
      front ++ last :: body.take header.length.toNat := by
    have hcount : (front ++ last :: body).length - body.length + header.length.toNat =
        front.length + (header.length.toNat + 1) := by simp; omega
    rw [hcount, List.take_length_add_append, List.take_succ_cons]
  rw [htake, decided_iff_outcome, hframe]
  refine MQTTParser.afterHeader_decided sort ?_ ?_
  · exact hp_header
  · rw [List.length_take]
    omega

/-- A PUBLISH packet and the first byte of the next packet. -/
def publishAndMore : List Call := callsFor [0x30, 4, 0, 1, 0x61, 0x78, 0xC0]

theorem frame_decided_iff_publish :
    (MQTTParser.machine id).Decided Determinate MQTTParser.new.reset (publishAndMore.take 6) ↔
      BodyDecides ⟨.publish, 0, 4⟩ [0, 1, 0x61, 0x78] :=
  frame_decided_iff id .new publishAndMore
    (show fixedHeader publishAndMore = some (⟨.publish, 0, 4⟩, publishAndMore.drop 2) by decide)
    (by decide)

/-- A SUBACK packet without a body swallows the packet behind it. -/
theorem frame_undecided :
    fixedHeader (callsFor [0x90, 0, 0xC0, 0]) = some (⟨.suback, 0, 0⟩, callsFor [0xC0, 0]) ∧
      ¬ (MQTTParser.machine id).Decided Determinate MQTTParser.new.reset
        (callsFor [0x90, 0]) := by
  decide

/-! ## §3 Frames that are accepted -/

/-- The bytes behind the first one, while the header is read. -/
theorem readHeader_length {header header' : FixedHeader} {body : List Call} (calls : List Call)
    (d : RunlengthDecoder) :
    readHeader ⟨.readLength, header, d⟩ calls = some (header', body) ↔
      ∃ lengthCalls length, calls = lengthCalls ++ body ∧
        RunlengthDecoder.read d (lengthCalls.map Call.byte) = some (length, []) ∧
        header' = { header with length := length } := by
  induction calls generalizing d with
  | nil =>
    simp only [readHeader, reduceCtorEq, false_iff]
    rintro ⟨lengthCalls, length, hcalls, hread, -⟩
    obtain ⟨rfl, -⟩ := List.append_eq_nil_iff.mp hcalls.symm
    cases hread
  | cons call calls ih =>
    -- the first of the calls is one of the length, in any case
    have hsplit : ∀ P : List Call → UInt32 → Prop, (∀ length, ¬ P [] length) →
        ((∃ lengthCalls length, call :: calls = lengthCalls ++ body ∧ P lengthCalls length) ↔
          ∃ lengthCalls length, calls = lengthCalls ++ body ∧ P (call :: lengthCalls) length) := by
      intro P hnil
      constructor
      · rintro ⟨lengthCalls, length, hcalls, h⟩
        cases lengthCalls with
        | nil => exact absurd h (hnil length)
        | cons first lengthCalls =>
          obtain ⟨rfl, rfl⟩ := List.cons.inj hcalls
          exact ⟨lengthCalls, length, rfl, h⟩
      · rintro ⟨lengthCalls, length, rfl, h⟩
        exact ⟨call :: lengthCalls, length, rfl, h⟩
    rw [hsplit _ (by simp [RunlengthDecoder.read])]
    simp only [List.map_cons, RunlengthDecoder.read]
    obtain ⟨value, d', ⟨-, h⟩ | ⟨-, h⟩ | ⟨-, h⟩⟩ := d.decode_cases call.byte none
    · simp [readHeader, FixedHeaderParser.parse, h]
    · simp [readHeader, FixedHeaderParser.parse, h, ih]
    · simp only [readHeader, FixedHeaderParser.parse, h, Tribool.isTrue_det, if_true,
        Option.some.injEq, Prod.mk.injEq, List.map_eq_nil_iff]
      constructor
      · rintro ⟨rfl, rfl⟩
        exact ⟨[], value, rfl, ⟨rfl, rfl⟩, rfl⟩
      · rintro ⟨lengthCalls, length, rfl, ⟨rfl, rfl⟩, rfl⟩
        exact ⟨rfl, rfl⟩

/-- **The fixed header of a frame**: a first byte that is valid, and the bytes
of the remaining length. -/
theorem fixedHeader_eq_some_iff {calls body : List Call} {header : FixedHeader} :
    fixedHeader calls = some (header, body) ↔
      ∃ (first : Call) (lengthCalls : List Call) (length : UInt32),
        calls = first :: (lengthCalls ++ body) ∧
        (FixedHeader.validate ⟨.ofByte first.byte, first.byte &&& 0x0F, 0⟩ none).1 = true ∧
        RunlengthDecoder.read {} (lengthCalls.map Call.byte) = some (length, []) ∧
        header = ⟨.ofByte first.byte, first.byte &&& 0x0F, length⟩ := by
  unfold fixedHeader
  cases calls with
  | nil => simp [readHeader]
  | cons first calls =>
    cases hvalid : (FixedHeader.validate ⟨.ofByte first.byte, first.byte &&& 0x0F, 0⟩ none).1 with
    | false =>
      have hnone : readHeader .reset (first :: calls) = none := by
        simp [readHeader, FixedHeaderParser.parse, FixedHeaderParser.reset, hvalid]
      rw [hnone]
      simp only [reduceCtorEq, false_iff]
      rintro ⟨first', lengthCalls, length, hcalls, hvalid', -⟩
      obtain ⟨rfl, -⟩ := List.cons.inj hcalls
      simp [hvalid] at hvalid'
    | true =>
      have hread : readHeader .reset (first :: calls) =
          readHeader ⟨.readLength, ⟨.ofByte first.byte, first.byte &&& 0x0F, 0⟩, {}⟩ calls := by
        simp [readHeader, FixedHeaderParser.parse, FixedHeaderParser.reset, hvalid]
      rw [hread, readHeader_length]
      constructor
      · rintro ⟨lengthCalls, length, rfl, hlength, rfl⟩
        exact ⟨first, lengthCalls, length, rfl, hvalid, hlength, rfl⟩
      · rintro ⟨first', lengthCalls, length, hcalls, -, hlength, rfl⟩
        obtain ⟨rfl, rfl⟩ := List.cons.inj hcalls
        exact ⟨lengthCalls, length, rfl, hlength, rfl⟩

namespace MQTTParser

/-- The calls are one frame for the parser: every call but the last is
undecided, the last returns true, and it leaves the packet. -/
def Reads (sort : TopicFilters → TopicFilters) (p : MQTTParser) (calls : List Call)
    (packet : ControlPacket) : Prop :=
  ∃ front last, calls = front ++ [last] ∧
    (∀ a ∈ (machine sort).outputs p front, a.1 = .indeterminate) ∧
    (machine sort ((machine sort).after p front) last).1.1 = .det true ∧
    (machine sort ((machine sort).after p front) last).2.packet = some packet

variable {sort : TopicFilters → TopicFilters} {p : MQTTParser} {calls body : List Call}
  {packet : ControlPacket} {header : FixedHeader}

theorem reads_iff_outcome : Reads sort p calls packet ↔
    (outcome (machine sort) p calls).map (·.packet) = .accepted (some packet) [] := by
  rw [Outcome.map_eq_accepted]
  constructor
  · rintro ⟨front, last, rfl, hfront, htrue, hpacket⟩
    exact ⟨_, outcome_eq_accepted_iff.mpr ⟨front, last, rfl, hfront, htrue, rfl⟩, hpacket⟩
  · rintro ⟨q, hq, hpacket⟩
    obtain ⟨front, last, rfl, hfront, htrue, rfl⟩ := outcome_eq_accepted_iff.mp hq
    exact ⟨front, last, rfl, hfront, htrue, hpacket⟩

instance (sort : TopicFilters → TopicFilters) (p : MQTTParser) (calls : List Call)
    (packet : ControlPacket) : Decidable (Reads sort p calls packet) :=
  decidable_of_iff _ reads_iff_outcome.symm

/-- Without a complete header nothing is accepted. -/
theorem not_accepted_of_header (hs : p.status = .start)
    (h : readHeader p.fixedHeaderParser calls = none) (q : MQTTParser) (rest : List Call) :
    outcome (machine sort) p calls ≠ .accepted q rest := by
  induction calls generalizing p with
  | nil => simp [outcome]
  | cons call calls ih =>
    rw [readHeader] at h
    rcases (p.fixedHeaderParser.parse_agrees call.byte).cases with
      ⟨hr, -⟩ | ⟨hr, -⟩ | ⟨hr, -⟩
    · have hstep : p.parse sort call none = _ := parse_start_indeterminate hs hr
      rw [outcome_indeterminate (by rw [machine, ParseResult.answer, hstep])]
      refine ih ?_ ?_
      · rw [machine, ParseResult.answer, hstep]
        exact hs
      · rw [machine, ParseResult.answer, hstep]
        simpa [hr] using h
    · have hstep : p.parse sort call none = _ := parse_start_false hs hr
      rw [outcome_false (by rw [machine, ParseResult.answer, hstep])]
      simp
    · simp [hr] at h

/-- A frame that is read has a header, and a body as long as the parser reads
for it. -/
theorem header_of_reads (h : Reads sort p.reset calls packet) :
    ∃ header body, fixedHeader calls = some (header, body) ∧
      body.length = acceptLength header := by
  cases hheader : fixedHeader calls with
  | none =>
    obtain ⟨q, hq, -⟩ := Outcome.map_eq_accepted.mp (reads_iff_outcome.mp h)
    exact absurd hq (not_accepted_of_header (p := p.reset) rfl hheader q [])
  | some read =>
    obtain ⟨front, last, rfl, hfront, htrue, -⟩ := h
    refine ⟨read.1, read.2, rfl, body_length_of_accepted sort p front last ?_ htrue hheader⟩
    intro a ha
    simp [hfront a ha]

section

/-! A run over a frame that is as long as its header says, by the type of the
packet. -/

variable (hheader : fixedHeader calls = some (header, body))

include hheader

theorem reads_iff_afterHeader (p : MQTTParser) : ∃ hp, hp.header = header ∧
    ∀ {A : Type} {o : Outcome A} {f : A → PacketBody},
      (afterHeader sort { p.reset with fixedHeaderParser := hp } body).map (·.packet) =
        (o.map fun q => some ⟨header, f q⟩) →
      (Reads sort p.reset calls packet ↔ ∃ q, o = .accepted q [] ∧ packet = ⟨header, f q⟩) := by
  obtain ⟨front, last, hp, rfl, hhp, hrun⟩ := outcome_frame sort p hheader
  refine ⟨hp, hhp, fun hafter => ?_⟩
  rw [reads_iff_outcome, hrun, hafter, Outcome.map_eq_accepted]
  simp only [Option.some.injEq, eq_comm]

variable (hlength : body.length = header.length.toNat)

include hlength

theorem reads_connect (ht : header.controlPacketType = .connect) :
    ∃ uuid, Reads sort p.reset calls packet ↔
      ∃ q, connectOutcome uuid p.connectParser.own.packet (body.map Call.byte) = .accepted q [] ∧
        packet = ⟨header, .connect q⟩ := by
  obtain ⟨hp, hhp, hreads⟩ := reads_iff_afterHeader hheader p
  obtain ⟨uuid, hafter⟩ := afterHeader_connect sort
    (p := { p.reset with fixedHeaderParser := hp }) hhp hlength ht
  exact ⟨uuid, hreads hafter⟩

theorem reads_publish (ht : header.controlPacketType = .publish) :
    Reads sort p.reset calls packet ↔
      ∃ q, publishOutcome (.ofBits ((header.flags &&& 0x06) >>> 1))
        { p.publishParser.own.packet with payload := [] } (body.map Call.byte) = .accepted q [] ∧
        packet = ⟨header, .publish q⟩ := by
  obtain ⟨hp, hhp, hreads⟩ := reads_iff_afterHeader hheader p
  exact hreads (afterHeader_publish sort
    (p := { p.reset with fixedHeaderParser := hp }) hhp hlength ht)

theorem reads_subscribe (ht : header.controlPacketType = .subscribe) :
    Reads sort p.reset calls packet ↔
      ∃ q, subscribeOutcome sort p.subscribeParser.own.packet (body.map Call.byte) =
        .accepted q [] ∧ packet = ⟨header, .subscribe q⟩ := by
  obtain ⟨hp, hhp, hreads⟩ := reads_iff_afterHeader hheader p
  exact hreads (afterHeader_subscribe sort
    (p := { p.reset with fixedHeaderParser := hp }) hhp hlength ht)

theorem reads_subAck (ht : header.controlPacketType = .suback) :
    Reads sort p.reset calls packet ↔
      ∃ q, subAckOutcome p.subAckParser.own.packet (body.map Call.byte) = .accepted q [] ∧
        packet = ⟨header, .subAck q⟩ := by
  obtain ⟨hp, hhp, hreads⟩ := reads_iff_afterHeader hheader p
  exact hreads (afterHeader_subAck sort
    (p := { p.reset with fixedHeaderParser := hp }) hhp hlength ht)

end

end MQTTParser

end Acatl.Mqtt

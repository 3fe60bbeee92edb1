/-
Acatl.Mqtt.SubscribeRoundTrip — SUBSCRIBE packets: reading what `Serializer`
writes, and answering what was read.

  `subscribeOutcome_accepted_iff`  a SUBSCRIBE body is accepted if it is what is
                                   written for some filters, none of them
                                   invalid.
  `subscribe_roundTrip_iff`        the filters are read as they were written if
                                   the sort loses none of them, which it is
                                   promised for aligned filters only.
  `subAck_answers_iff`             when the codes of the SUBACK packet are those
                                   of the filters, in their order.
-/
import Acatl.Mqtt.FilterOrder
import Acatl.Mqtt.FrameRoundTrips

namespace Acatl.Mqtt

open Acatl.Lib

/-! ## §1 The filters of a body -/

namespace TopicFilter

/-- A filter in a SUBSCRIBE body. -/
def bytes (f : TopicFilter) : Bytes := stringBytes f.filter ++ [f.qos.byte]

/-- A filter as it can stand in an accepted body. -/
structure Carried (f : TopicFilter) : Prop where
  valid : f.Valid
  fits : f.filter.length < 2 ^ 16
  leveled : f.qos ≠ .error

end TopicFilter

theorem flatMap_filters_eq_nil {filters : TopicFilters} :
    filters.flatMap TopicFilter.bytes = [] ↔ filters = [] := by
  cases filters with
  | nil => simp
  | cons f filters => simp [TopicFilter.bytes]

/-- A byte for the quality of service is one of the three, and the filter is
valid. -/
theorem not_filterRefused_iff {filter : Bytes} {qos : UInt8} :
    ¬ FilterRefused filter qos ↔
      ∃ level : QoSLevel, level ≠ .error ∧ qos = level.byte ∧
        (TopicFilter.mk filter level).Valid := by
  have hbyte : (qos &&& 0xFC = 0 ∧ ¬ qos &&& 0x03 > 2) ↔
      ∃ level : QoSLevel, level ≠ .error ∧ qos = level.byte := by
    constructor
    · intro hlevel
      refine ⟨.ofBits (qos &&& 0x03), ?_⟩
      exact forall_byte (P := fun qos => qos &&& 0xFC = 0 ∧ ¬ qos &&& 0x03 > 2 →
        QoSLevel.ofBits (qos &&& 0x03) ≠ .error ∧ qos = (QoSLevel.ofBits (qos &&& 0x03)).byte)
        (by decide +kernel) qos hlevel
    · rintro ⟨level, hlevel, rfl⟩
      cases level with
      | error => exact absurd rfl hlevel
      | atMostOnce | atLeastOnce | exactlyOnce => decide
  have hvalid : (TopicFilter.validate ⟨filter, .ofBits (qos &&& 0x03)⟩ none).1 =
      (TopicFilter.validateFrom 0 filter none).1 := rfl
  unfold FilterRefused
  rw [not_or, not_or, ← and_assoc, not_not, hbyte, hvalid, Bool.not_eq_false]
  constructor
  · rintro ⟨⟨level, hlevel, hqos⟩, h⟩
    exact ⟨level, hlevel, hqos, h⟩
  · rintro ⟨level, hlevel, hqos, h⟩
    exact ⟨⟨level, hlevel, hqos⟩, h⟩

theorem not_filterRefused_byte {f : TopicFilter} (h : f.Carried) :
    ¬ FilterRefused f.filter f.qos.byte :=
  not_filterRefused_iff.mpr ⟨f.qos, h.leveled, rfl, h.valid⟩

theorem ofBits_byte_and {level : QoSLevel} (h : level ≠ .error) :
    QoSLevel.ofBits (level.byte &&& 0x03) = level := by
  cases level with
  | error => exact absurd rfl h
  | atMostOnce | atLeastOnce | exactlyOnce => rfl

theorem takeString_filter {f : TopicFilter} (h : f.filter.length < 2 ^ 16) (rest : Bytes) :
    takeString (f.bytes ++ rest) = some (f.filter, f.qos.byte :: rest) := by
  rw [TopicFilter.bytes, List.append_assoc]
  exact takeString_stringBytes h _

theorem QoSLevel.byte_injective : Function.Injective QoSLevel.byte := by
  intro q r h
  rw [← q.ofBits_byte, h, r.ofBits_byte]

/-- The bytes of filters are those of no others. -/
theorem flatMap_filters_inj {fs gs : TopicFilters} (hfs : ∀ f ∈ fs, f.filter.length < 2 ^ 16)
    (hgs : ∀ g ∈ gs, g.filter.length < 2 ^ 16)
    (h : fs.flatMap TopicFilter.bytes = gs.flatMap TopicFilter.bytes) : fs = gs := by
  induction fs generalizing gs with
  | nil => exact (flatMap_filters_eq_nil.mp h.symm).symm
  | cons f fs ih =>
    cases gs with
    | nil => exact flatMap_filters_eq_nil.mp h
    | cons g gs =>
      obtain ⟨hf, hfs⟩ := List.forall_mem_cons.mp hfs
      obtain ⟨hg, hgs⟩ := List.forall_mem_cons.mp hgs
      rw [List.flatMap_cons, List.flatMap_cons] at h
      have htake := (takeString_filter hf _).symm.trans
        ((congrArg takeString h).trans (takeString_filter hg _))
      obtain ⟨hfilter, hrest⟩ := Prod.mk.inj (Option.some.inj htake)
      obtain ⟨hbyte, hrest⟩ := List.cons.inj hrest
      have hsame : f = g := by
        obtain ⟨filter, qos⟩ := f
        obtain ⟨filter', qos'⟩ := g
        have hfilter : filter = filter' := hfilter
        have hqos : qos = qos' := QoSLevel.byte_injective hbyte
        rw [hfilter, hqos]
      rw [hsame, ih hfs hgs hrest]

/-- What is written for filters is read as these filters. -/
theorem filtersOutcome_bytes {fs : TopicFilters} (hne : fs ≠ []) (hfs : ∀ f ∈ fs, f.Carried)
    (filters : TopicFilters) :
    filtersOutcome filters (fs.flatMap TopicFilter.bytes) = .accepted (filters ++ fs) [] := by
  induction fs generalizing filters with
  | nil => exact absurd rfl hne
  | cons f fs ih =>
    obtain ⟨hf, hrest⟩ := List.forall_mem_cons.mp hfs
    rw [List.flatMap_cons, filtersOutcome_cons (takeString_filter hf.fits _),
      if_neg (not_filterRefused_byte hf), ofBits_byte_and hf.leveled]
    by_cases hnil : fs = []
    · rw [if_pos (flatMap_filters_eq_nil.mpr hnil), hnil]
    · rw [if_neg (fun h => hnil (flatMap_filters_eq_nil.mp h)), ih hnil hrest, List.append_assoc,
        List.singleton_append]

/-- **What an accepted body carries**: filters as they are written, by induction
on a bound for the length of the body. -/
theorem filtersOutcome_accepted (n : Nat) : ∀ (bytes : Bytes), bytes.length < n →
    ∀ {filters result : TopicFilters} {rest : List Call},
    filtersOutcome filters bytes = .accepted result rest →
    ∃ fs, fs ≠ [] ∧ (∀ f ∈ fs, f.Carried) ∧ bytes = fs.flatMap TopicFilter.bytes ∧
      result = filters ++ fs := by
  induction n with
  | zero => intro bytes hn; omega
  | succ n ih =>
    intro bytes hn filters result rest h
    match htake : takeString bytes with
    | none =>
      rw [filtersOutcome_none htake] at h
      cases h
    | some (filter, []) =>
      rw [filtersOutcome_open htake] at h
      cases h
    | some (filter, qos :: tail) =>
      have hlength := takeString_length htake
      rw [List.length_cons] at hlength
      obtain ⟨hfits, hbytes⟩ := takeString_eq_some_iff.mp htake
      rw [filtersOutcome_cons htake] at h
      by_cases hrefused : FilterRefused filter qos
      · rw [if_pos hrefused] at h
        cases h
      · rw [if_neg hrefused] at h
        obtain ⟨level, hlevel, rfl, hvalid⟩ := not_filterRefused_iff.mp hrefused
        rw [ofBits_byte_and hlevel] at h
        have hcarried : (TopicFilter.mk filter level).Carried := ⟨hvalid, hfits, hlevel⟩
        by_cases hnil : tail = []
        · rw [if_pos hnil] at h
          obtain ⟨rfl, -⟩ := Outcome.accepted.inj h
          refine ⟨[⟨filter, level⟩], by simp, by simpa using hcarried, ?_, rfl⟩
          rw [hbytes, hnil]
          simp [TopicFilter.bytes]
        · rw [if_neg hnil] at h
          obtain ⟨fs, -, hfs, htail, rfl⟩ := ih tail (by omega) h
          refine ⟨⟨filter, level⟩ :: fs, by simp, List.forall_mem_cons.mpr ⟨hcarried, hfs⟩, ?_, ?_⟩
          · rw [hbytes, htail]
            simp [TopicFilter.bytes]
          · rw [List.append_assoc, List.singleton_append]

theorem PacketBody.bytes_subscribe (s : SubscribeControlPacket) :
    (PacketBody.subscribe s).bytes = msb s.packetIdentifier :: lsb s.packetIdentifier ::
      s.topicFilters.flatMap TopicFilter.bytes := by
  have hfilter : ∀ f : TopicFilter,
      [.string f.filter, .plain [f.qos.byte]].flatMap Field.bytes = f.bytes := by
    intro f
    simp [TopicFilter.bytes]
  rw [bytes, fields, List.flatMap_cons, List.flatMap_assoc]
  simp only [hfilter]
  rfl

/-- A SUBSCRIBE body as it is written. -/
theorem subscribeOutcome_bytes (sort : TopicFilters → TopicFilters)
    (packet : SubscribeControlPacket) {s : SubscribeControlPacket} (hne : s.topicFilters ≠ [])
    (hcarried : ∀ f ∈ s.topicFilters, f.Carried) :
    subscribeOutcome sort packet (PacketBody.subscribe s).bytes =
      .accepted ⟨s.packetIdentifier,
        SubscribeParser.unique (sort (packet.topicFilters ++ s.topicFilters))⟩ [] := by
  rw [PacketBody.bytes_subscribe, subscribeOutcome, filtersOutcome_bytes hne hcarried,
    join_msb_lsb, Outcome.map_accepted]

/-- **Which SUBSCRIBE bodies are accepted**, and what is left of their filters. -/
theorem subscribeOutcome_accepted_iff (sort : TopicFilters → TopicFilters)
    (packet : SubscribeControlPacket) {q : SubscribeControlPacket} {bytes : Bytes} :
    subscribeOutcome sort packet bytes = .accepted q [] ↔
      ∃ s : SubscribeControlPacket, s.topicFilters ≠ [] ∧ (∀ f ∈ s.topicFilters, f.Carried) ∧
        bytes = (PacketBody.subscribe s).bytes ∧
        q = ⟨s.packetIdentifier,
          SubscribeParser.unique (sort (packet.topicFilters ++ s.topicFilters))⟩ := by
  constructor
  · intro h
    match bytes with
    | [] => cases h
    | [_] => cases h
    | high :: low :: rest =>
      obtain ⟨result, hresult, rfl⟩ := Outcome.map_eq_accepted.mp h
      obtain ⟨fs, hne, hfs, rfl, rfl⟩ := filtersOutcome_accepted _ _ (Nat.lt_succ_self _) hresult
      refine ⟨⟨join high low, fs⟩, hne, hfs, ?_, rfl⟩
      rw [PacketBody.bytes_subscribe, msb_join, lsb_join]
  · rintro ⟨s, hne, hcarried, rfl, rfl⟩
    exact subscribeOutcome_bytes sort packet hne hcarried

/-! ## §2 The round trip -/

/-- No filter is lost as a duplicate. -/
theorem SubscribeParser.mem_unique {f : TopicFilter} {filters : TopicFilters} :
    f ∈ unique filters ↔ f ∈ filters :=
  mem_destutter_ne

/-- A SUBSCRIBE packet with this identifier and the same set of filters. -/
def PacketBody.IsSubscription (s : SubscribeControlPacket) (body : PacketBody) : Prop :=
  ∃ q, body = .subscribe q ∧ q.packetIdentifier = s.packetIdentifier ∧
    ∀ f, f ∈ q.topicFilters ↔ f ∈ s.topicFilters

section

variable {header : FixedHeader} {s : SubscribeControlPacket}
  (htype : header.controlPacketType = .subscribe) (hne : s.topicFilters ≠ [])
  (hcarried : ∀ f ∈ s.topicFilters, f.Carried)
  (hfits : (PacketBody.subscribe s).bytes.length < 2 ^ 28)

include htype hne hcarried hfits

/-- The set of filters is the one that the sort leaves. -/
theorem subscribe_roundTrips_iff (sort : TopicFilters → TopicFilters) :
    RoundTrips (MQTTParser.Reads sort .new) ⟨header, .subscribe s⟩ (PacketBody.IsSubscription s) ↔
      ∀ f, f ∈ sort s.topicFilters ↔ f ∈ s.topicFilters := by
  have hwrites : Serializer.Serializable ⟨header, .subscribe s⟩ := ⟨htype.symm, by simp⟩
  rw [roundTrips_iff hwrites]
  -- what a fresh parser does with the frame
  have hreads : ∀ calls : List Call, calls.map Call.byte = (PacketBody.subscribe s).frame →
      ∃ header', ∀ packet, MQTTParser.Reads sort .new calls packet ↔
        packet = ⟨header', .subscribe ⟨s.packetIdentifier,
          SubscribeParser.unique (sort s.topicFilters)⟩⟩ := by
    intro calls hcalls
    obtain ⟨header', body, hheader, htype', -, hbody, hlength⟩ :=
      fixedHeader_of_frame hcalls (show _ < if False then 128 else 2 ^ 28 by simpa)
        (show (FixedHeader.validate ⟨.ofByte 0x82, 0x82 &&& 0x0F, 0⟩ none).1 = true by decide)
    have htype' : header'.controlPacketType = .subscribe :=
      htype'.trans (show ControlPacketType.ofByte 0x82 = .subscribe by decide)
    refine ⟨header', fun packet =>
      (MQTTParser.reads_subscribe (p := .new) hheader hlength htype').trans ?_⟩
    rw [hbody, subscribeOutcome_bytes sort _ hne hcarried]
    constructor
    · rintro ⟨q, hq, rfl⟩
      obtain rfl := (Outcome.accepted.inj hq).1
      rfl
    · rintro rfl
      exact ⟨_, rfl, rfl⟩
  constructor
  · intro h
    obtain ⟨header', body, hread, q, rfl, -, hsame⟩ := h _ (map_callsFor _)
    obtain ⟨header'', hread'⟩ := hreads _ (map_callsFor _)
    have hpacket := (hread' _).mp hread
    simp only [ControlPacket.mk.injEq, PacketBody.subscribe.injEq] at hpacket
    intro f
    rw [← hsame f, hpacket.2, SubscribeParser.mem_unique]
  · intro hsame calls hcalls
    obtain ⟨header', hread⟩ := hreads calls hcalls
    refine ⟨header', _, (hread _).mpr rfl, _, rfl, rfl, fun f => ?_⟩
    rw [SubscribeParser.mem_unique, hsame f]

/-- What the sort is promised is enough for aligned filters, and for no others. -/
theorem subscribe_contract_iff :
    (∀ sort, SortContract TopicFilter.lt sort → RoundTrips (MQTTParser.Reads sort .new)
        ⟨header, .subscribe s⟩ (PacketBody.IsSubscription s)) ↔
      Aligned s.topicFilters := by
  have hsome : ∃ result : TopicFilters, ¬ ∀ f, f ∈ result ↔ f ∈ s.topicFilters := by
    obtain ⟨f, hf⟩ := List.exists_mem_of_ne_nil _ hne
    refine ⟨[], fun h => ?_⟩
    have hnil := (h f).mpr hf
    simp at hnil
  rw [← strictWeakOn_iff]
  simp only [subscribe_roundTrips_iff htype hne hcarried hfits]
  rw [contract_forall_iff (P := fun result => ∀ f, f ∈ result ↔ f ∈ s.topicFilters) _ hsome]
  exact and_iff_left fun sorted hsorted f => hsorted.perm.mem_iff

/-- **The filters of a SUBSCRIBE packet are read as they were written** if the
sort permutes them. That is promised, for all that a sort within its contract
may do, **if and only if** no filter with a smaller string has a higher quality
of service. -/
theorem subscribe_roundTrip_iff :
    (∀ sort : TopicFilters → TopicFilters, (sort s.topicFilters).Perm s.topicFilters →
      RoundTrips (MQTTParser.Reads sort .new) ⟨header, .subscribe s⟩
        (PacketBody.IsSubscription s)) ∧
    ((∀ sort, SortContract TopicFilter.lt sort → RoundTrips (MQTTParser.Reads sort .new)
        ⟨header, .subscribe s⟩ (PacketBody.IsSubscription s)) ↔
      Aligned s.topicFilters) := by
  refine ⟨fun sort hperm => ?_, subscribe_contract_iff htype hne hcarried hfits⟩
  rw [subscribe_roundTrips_iff htype hne hcarried hfits]
  exact fun f => hperm.mem_iff

end

/-- Two filters, the second one with the higher quality of service. -/
def twoFilters : TopicFilters := [⟨[0x61], .atMostOnce⟩, ⟨[0x62], .atLeastOnce⟩]

theorem twoFilters_carried : ∀ f ∈ twoFilters, f.Carried := by
  intro f hf
  simp only [twoFilters, List.mem_cons, List.not_mem_nil, or_false] at hf
  rcases hf with rfl | rfl <;> exact ⟨by decide, by decide, by decide⟩

theorem subscribe_roundTrip_iff_two :
    (∀ sort : TopicFilters → TopicFilters, (sort twoFilters).Perm twoFilters →
      RoundTrips (MQTTParser.Reads sort .new)
        ⟨{ controlPacketType := .subscribe }, .subscribe ⟨1, twoFilters⟩⟩
        (PacketBody.IsSubscription ⟨1, twoFilters⟩)) ∧
    ((∀ sort, SortContract TopicFilter.lt sort → RoundTrips (MQTTParser.Reads sort .new)
        ⟨{ controlPacketType := .subscribe }, .subscribe ⟨1, twoFilters⟩⟩
        (PacketBody.IsSubscription ⟨1, twoFilters⟩)) ↔
      Aligned twoFilters) :=
  subscribe_roundTrip_iff (s := ⟨1, twoFilters⟩) rfl (by decide) twoFilters_carried (by decide)

/-- Filters each of which is less than all others that differ from it. -/
def crossedFilters : TopicFilters :=
  List.replicate 8 ⟨[0x61], .exactlyOnce⟩ ++ [⟨[0x62], .atLeastOnce⟩] ++
    List.replicate 8 ⟨[0x63], .atMostOnce⟩

/-- Nothing is promised for those, and so their round trip is not. -/
theorem subscribe_roundTrip_fails :
    ¬ ∀ sort, SortContract TopicFilter.lt sort → RoundTrips (MQTTParser.Reads sort .new)
      ⟨{ controlPacketType := .subscribe }, .subscribe ⟨1, crossedFilters⟩⟩
      (PacketBody.IsSubscription ⟨1, crossedFilters⟩) := by
  have hcarried : ∀ f ∈ crossedFilters, f.Carried := by
    intro f hf
    simp only [crossedFilters, List.mem_append, List.mem_replicate, List.mem_singleton] at hf
    rcases hf with (⟨-, rfl⟩ | rfl) | ⟨-, rfl⟩ <;> exact ⟨by decide, by decide, by decide⟩
  rw [subscribe_contract_iff (s := ⟨1, crossedFilters⟩) rfl (by decide) hcarried (by decide)]
  decide

/-! ## §3 The answer -/

namespace Broker

/-- A connected processor with its sender, its session and the handler of that. -/
def Serves (b : Broker) (proc : Processor) : Prop :=
  proc.status = .connected ∧ b.senderExpired proc.packetSender = false ∧
    ∃ session handler, proc.currentSession = some session ∧
      b.processors (b.manager.objects session).subscriptionHandler = some handler

/-- A broker with nothing but connected processors of one session. -/
def serving : Broker := { processors := fun _ => some ⟨.connected, some 0, some 0⟩ }

theorem serving_serves : serving.Serves ⟨.connected, some 0, some 0⟩ :=
  ⟨rfl, rfl, 0, ⟨.connected, some 0, some 0⟩, rfl, rfl⟩

end Broker

/-- Every packet that a connected processor returns for the packet is that
SUBACK packet, and where it can serve it does return one. -/
structure AnsweredWith (packet : ControlPacket) (suback : SubAckControlPacket) : Prop where
  answers : ∀ (b : Broker) (p : ProcessorId) (proc : Processor) (ec : ErrorCode),
    proc.status = .connected → ∀ state answer,
    (b.processPacket p proc packet ec).result = .returned state (some answer) →
    answer.body = .subAck suback
  returns : ∀ (b : Broker) (p : ProcessorId) (proc : Processor) (ec : ErrorCode),
    b.Serves proc → ∃ state answer,
    (b.processPacket p proc packet ec).result = .returned state (some answer)

section

variable {header : FixedHeader} (htype : header.controlPacketType = .subscribe)
  (subs : SubscribeControlPacket)

include htype

theorem Broker.processPacket_subscribe (b : Broker) (p : ProcessorId) {proc : Processor}
    (ec : ErrorCode) (hsender : b.senderExpired proc.packetSender = false)
    (hstatus : proc.status = .connected) :
    b.processPacket p proc ⟨header, .subscribe subs⟩ ec = b.doProcessSubscribe proc subs ec := by
  simp [processPacket, dispatch, hsender, hstatus, htype]

/-- The answer to a SUBSCRIBE packet has the codes of its filters. -/
theorem answeredWith_iff (suback : SubAckControlPacket) :
    AnsweredWith ⟨header, .subscribe subs⟩ suback ↔
      suback = ⟨subs.packetIdentifier, subs.topicFilters.map TopicFilter.qos⟩ := by
  constructor
  · intro h
    have hserves := Broker.serving_serves
    obtain ⟨state, answer, hresult⟩ := h.returns Broker.serving 0 _ none hserves
    have hbody := h.answers Broker.serving 0 _ none hserves.1 state answer hresult
    rw [Broker.processPacket_subscribe htype subs _ _ _ hserves.2.1 hserves.1] at hresult
    simp only [Broker.doProcessSubscribe, Broker.addSubscriptions, Broker.serving,
      CallResult.returned.injEq, Option.some.injEq] at hresult
    rw [← hresult.2] at hbody
    exact (PacketBody.subAck.inj hbody).symm
  · rintro rfl
    constructor
    · intro b p proc ec hstatus state answer hresult
      cases hsender : b.senderExpired proc.packetSender with
      | true => simp [Broker.processPacket, hsender] at hresult
      | false =>
        rw [Broker.processPacket_subscribe htype subs b p ec hsender hstatus] at hresult
        unfold Broker.doProcessSubscribe at hresult
        split at hresult
        · cases hresult
        · split at hresult
          · cases hresult
          · obtain ⟨-, hanswer⟩ := CallResult.returned.inj hresult
            rw [← Option.some.inj hanswer]
            rfl
    · intro b p proc ec hserves
      obtain ⟨hstatus, hsender, session, handler, hsession, hhandler⟩ := hserves
      rw [Broker.processPacket_subscribe htype subs b p ec hsender hstatus,
        Broker.doProcessSubscribe_some b hsession, Broker.addSubscriptions_live hhandler]
      exact ⟨_, _, rfl⟩

end

/-- The packet that is read of a frame with these filters. -/
theorem MQTTParser.reads_subscribe_iff {sort : TopicFilters → TopicFilters} {p : MQTTParser}
    {calls body : List Call} {packet : ControlPacket} {header : FixedHeader}
    (hheader : fixedHeader calls = some (header, body))
    (hlength : body.length = header.length.toNat)
    (htype : header.controlPacketType = .subscribe) {s : SubscribeControlPacket}
    (hcarries : body.map Call.byte = (PacketBody.subscribe s).bytes)
    (hfits : ∀ f ∈ s.topicFilters, f.filter.length < 2 ^ 16) :
    Reads sort p.reset calls packet ↔
      s.topicFilters ≠ [] ∧ (∀ f ∈ s.topicFilters, f.Carried) ∧
        packet = ⟨header, .subscribe ⟨s.packetIdentifier, SubscribeParser.unique
          (sort (p.subscribeParser.own.packet.topicFilters ++ s.topicFilters))⟩⟩ := by
  rw [reads_subscribe hheader hlength htype, hcarries]
  constructor
  · rintro ⟨q, hq, rfl⟩
    obtain ⟨s', hne, hcarried, hbytes, rfl⟩ := (subscribeOutcome_accepted_iff sort _).mp hq
    -- the filters that were read are those of the frame
    rw [PacketBody.bytes_subscribe, PacketBody.bytes_subscribe] at hbytes
    obtain ⟨hmsb, htail⟩ := List.cons.inj hbytes
    obtain ⟨hlsb, hfilters⟩ := List.cons.inj htail
    have hidentifier : s.packetIdentifier = s'.packetIdentifier := by
      rw [← join_msb_lsb s.packetIdentifier, hmsb, hlsb, join_msb_lsb]
    have hsame := flatMap_filters_inj hfits (fun f hf => (hcarried f hf).fits) hfilters
    rw [hidentifier, hsame]
    exact ⟨hne, hcarried, rfl⟩
  · rintro ⟨hne, hcarried, rfl⟩
    exact ⟨_, subscribeOutcome_bytes sort _ hne hcarried, rfl⟩

/-- The codes of sorted filters without repeats are those of the request if
they do not go down there and if there are as many of each. -/
theorem codes_of_sortOf {all sorted : TopicFilters} (h : SortOf TopicFilter.lt all sorted)
    (codes : List QoSLevel) :
    codes = (SubscribeParser.unique sorted).map TopicFilter.qos ↔
      (codes.Pairwise fun q r => q.value ≤ r.value) ∧
        codes.Perm (all.dedup.map TopicFilter.qos) := by
  have hperm : (SubscribeParser.unique sorted).Perm all.dedup :=
    destutter_ne_perm_dedup (fun f g hfg hgf => TopicFilter.lt_connected hgf hfg) h.ordered h.perm
  have hpairwise : ((SubscribeParser.unique sorted).map TopicFilter.qos).Pairwise
      fun q r => q.value ≤ r.value :=
    (qos_of_sortOf h).sublist ((List.destutter_sublist _ sorted).map TopicFilter.qos)
  constructor
  · rintro rfl
    exact ⟨hpairwise, hperm.map _⟩
  · intro ⟨hcodes, hsame⟩
    have hantisymm : ∀ q r : QoSLevel, q ∈ codes →
        r ∈ (SubscribeParser.unique sorted).map TopicFilter.qos →
        q.value ≤ r.value → r.value ≤ q.value → q = r := by
      intro q r _ _ hqr hrq
      exact QoSLevel.value_injective (le_antisymm hqr hrq)
    exact List.Perm.eq_of_pairwise hantisymm hcodes hpairwise (hsame.trans (hperm.map _).symm)

/-- **The SUBACK packet answers the filters of the frame, in their order, if and
only if** the filters that the parser holds, which are those of the frame and
those that earlier frames have left, are aligned, the levels of the frame do not
go down, and every level is that of as many filters of the frame as there are
different ones with it in the parser. -/
theorem subAck_answers_iff {p : MQTTParser} {calls body : List Call} {header : FixedHeader}
    {accepted : ControlPacket} {sort : TopicFilters → TopicFilters}
    (haccepted : MQTTParser.Reads sort p.reset calls accepted)
    (hheader : fixedHeader calls = some (header, body))
    (htype : header.controlPacketType = .subscribe) {s : SubscribeControlPacket}
    (hcarries : body.map Call.byte = (PacketBody.subscribe s).bytes)
    (hfits : ∀ f ∈ s.topicFilters, f.filter.length < 2 ^ 16) :
    (∀ sort, SortContract TopicFilter.lt sort →
      ∀ packet, MQTTParser.Reads sort p.reset calls packet →
      AnsweredWith packet ⟨s.packetIdentifier, s.topicFilters.map TopicFilter.qos⟩) ↔
      Aligned (p.subscribeParser.own.packet.topicFilters ++ s.topicFilters) ∧
      ((s.topicFilters.map TopicFilter.qos).Pairwise fun q r => q.value ≤ r.value) ∧
      (s.topicFilters.map TopicFilter.qos).Perm
        ((p.subscribeParser.own.packet.topicFilters ++ s.topicFilters).dedup.map
          TopicFilter.qos) := by
  have hlength : body.length = header.length.toNat := by
    obtain ⟨header', body', hheader', haccept⟩ := MQTTParser.header_of_reads haccepted
    obtain ⟨rfl, rfl⟩ := Prod.mk.inj (Option.some.inj (hheader.symm.trans hheader'))
    rw [haccept, MQTTParser.acceptLength, htype]
  have hreads : ∀ {sort packet}, MQTTParser.Reads sort p.reset calls packet ↔ _ :=
    MQTTParser.reads_subscribe_iff hheader hlength htype hcarries hfits
  obtain ⟨hne, hcarried, -⟩ := hreads.mp haccepted
  generalize hall : p.subscribeParser.own.packet.topicFilters ++ s.topicFilters = all at hreads ⊢
  -- what is asked of the sort
  have hanswers : ∀ sort, (∀ packet, MQTTParser.Reads sort p.reset calls packet →
      AnsweredWith packet ⟨s.packetIdentifier, s.topicFilters.map TopicFilter.qos⟩) ↔
      s.topicFilters.map TopicFilter.qos =
        (SubscribeParser.unique (sort all)).map TopicFilter.qos := by
    intro sort
    constructor
    · intro h
      have hanswered := h _ (hreads.mpr ⟨hne, hcarried, rfl⟩)
      rw [answeredWith_iff htype] at hanswered
      exact (SubAckControlPacket.mk.inj hanswered).2
    · intro hcodes packet hread
      obtain ⟨-, -, rfl⟩ := hreads.mp hread
      rw [answeredWith_iff htype, hcodes]
  have hsome : ∃ result : TopicFilters, ¬ s.topicFilters.map TopicFilter.qos =
      (SubscribeParser.unique result).map TopicFilter.qos := by
    refine ⟨[], fun h => hne ?_⟩
    simpa [SubscribeParser.unique] using h
  simp only [hanswers]
  rw [contract_forall_iff (P := fun result => s.topicFilters.map TopicFilter.qos =
    (SubscribeParser.unique result).map TopicFilter.qos) all hsome, strictWeakOn_iff]
  refine and_congr_right fun haligned => ?_
  constructor
  · intro h
    obtain ⟨sorted, hsorted⟩ := (strictWeakOn_iff.mpr haligned).exists_sortOf
    exact (codes_of_sortOf hsorted _).mp (h sorted hsorted)
  · intro h sorted hsorted
    exact (codes_of_sortOf hsorted _).mpr h

/-- A SUBSCRIBE packet with the filters in their order. -/
theorem subAck_answers_iff_two :
    (∀ sort, SortContract TopicFilter.lt sort → ∀ packet,
      MQTTParser.Reads sort MQTTParser.new.reset
        (callsFor (PacketBody.subscribe ⟨1, twoFilters⟩).frame) packet →
      AnsweredWith packet ⟨1, twoFilters.map TopicFilter.qos⟩) ↔
      Aligned ([] ++ twoFilters) ∧
      ((twoFilters.map TopicFilter.qos).Pairwise fun q r => q.value ≤ r.value) ∧
      (twoFilters.map TopicFilter.qos).Perm
        (([] ++ twoFilters).dedup.map TopicFilter.qos) :=
  subAck_answers_iff (p := .new) (s := ⟨1, twoFilters⟩)
    (show MQTTParser.Reads id .new (callsFor (PacketBody.subscribe ⟨1, twoFilters⟩).frame)
      ⟨⟨.subscribe, 2, 10⟩, .subscribe ⟨1, twoFilters⟩⟩ by decide)
    (show fixedHeader (callsFor (PacketBody.subscribe ⟨1, twoFilters⟩).frame) =
      some (⟨.subscribe, 2, 10⟩, callsFor (PacketBody.subscribe ⟨1, twoFilters⟩).bytes) by decide)
    rfl (map_callsFor _) (fun f hf => (twoFilters_carried f hf).fits)

/-- The same filters the other way round are answered in the order of the sort. -/
theorem subAck_answers_fails :
    ¬ ∀ sort, SortContract TopicFilter.lt sort → ∀ packet, MQTTParser.Reads sort .new
      (callsFor (PacketBody.subscribe ⟨1, twoFilters.reverse⟩).frame) packet →
      AnsweredWith packet ⟨1, twoFilters.reverse.map TopicFilter.qos⟩ := by
  intro h
  obtain ⟨sort, hsort, hresult⟩ := contract_exists twoFilters.reverse twoFilters
    (fun _ => (⟨by decide, by decide⟩ : SortOf TopicFilter.lt twoFilters.reverse twoFilters))
  have hcarried : ∀ f ∈ twoFilters.reverse, f.Carried :=
    fun f hf => twoFilters_carried f (List.mem_reverse.mp hf)
  have hreads : ∀ packet, MQTTParser.Reads sort MQTTParser.new.reset
      (callsFor (PacketBody.subscribe ⟨1, twoFilters.reverse⟩).frame) packet ↔ _ := fun packet =>
    MQTTParser.reads_subscribe_iff (s := ⟨1, twoFilters.reverse⟩)
      (show fixedHeader (callsFor (PacketBody.subscribe ⟨1, twoFilters.reverse⟩).frame) =
        some (⟨.subscribe, 2, 10⟩, callsFor (PacketBody.subscribe ⟨1, twoFilters.reverse⟩).bytes)
        by decide)
      (by decide) rfl (map_callsFor _) (fun f hf => (hcarried f hf).fits)
  have hread := (hreads _).mpr ⟨by decide, hcarried, rfl⟩
  have hanswered := (answeredWith_iff rfl _ _).mp (h sort hsort _ hread)
  have hcodes := (SubAckControlPacket.mk.inj hanswered).2
  have hall : MQTTParser.new.subscribeParser.own.packet.topicFilters ++ twoFilters.reverse =
      twoFilters.reverse := rfl
  rw [hall, hresult] at hcodes
  revert hcodes
  decide

end Acatl.Mqtt

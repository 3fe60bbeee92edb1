/-
Acatl.Mqtt.FrameRoundTrips — what `Serializer` writes against what a fresh
`MQTTParser` reads.

  §1  `Writes`: the bytes that `serialize` writes; `RoundTrips`: they are read
      back as one frame.
  §2  CONNECT: reading a frame and writing it again.
  §3  PUBLISH: reading what the broker relays.
  §4  SUBACK: reading what was written.

The SUBSCRIBE packet is in `Acatl.Mqtt.SubscribeRoundTrip`.
-/
import Acatl.Mqtt.AcceptedBodies
import Acatl.Mqtt.FrameOutcomes
import Acatl.Mqtt.Processor
import Acatl.Mqtt.SerializedFrames

namespace Acatl.Mqtt

open Acatl.Lib

/-! ## §1 Writing and reading -/

namespace Serializer

/-- What `serialize` writes for the packet, into any buffer with room for it. -/
def Writes (packet : ControlPacket) (bytes : Bytes) : Prop :=
  ∀ buffer length ec, ∃ s, serialize packet buffer length ec = some s ∧ s.ret = true ∧
    (s.out.InBounds → s.out.buffer.take s.out.position = bytes)

/-- A packet of the class its header says, and of one that `serialize` writes. -/
structure Serializable (packet : ControlPacket) : Prop where
  typed : packet.body.controlPacketType = packet.header.controlPacketType
  written : packet.body ≠ .pingReq

theorem Serializable.serialize {packet : ControlPacket} (h : Serializable packet) (buffer : Bytes)
    (length : Nat) (ec : ErrorCode) :
    ∃ s, serialize packet buffer length ec = some s ∧ s.ret = true := by
  obtain ⟨header, body⟩ := packet
  have htype := h.typed.symm
  unfold Serializer.serialize
  cases body with
  | pingReq => exact absurd rfl h.written
  | connect | connAck | publish | subscribe | subAck | pingResp | disconnect =>
    simp only [PacketBody.controlPacketType] at htype
    simp only [htype]
    exact ⟨_, rfl, rfl⟩

/-- **The frame is what is written.** -/
theorem writes_iff {packet : ControlPacket} (h : Serializable packet) {bytes : Bytes} :
    Writes packet bytes ↔ bytes = packet.body.frame := by
  constructor
  · intro hwrites
    obtain ⟨s, hs, hret, htaken⟩ := hwrites (List.replicate packet.body.frame.length 0) 0 none
    obtain ⟨f, hf, hout⟩ := serialize_emits hs hret
    have hroom : s.out.InBounds := by
      rw [hout, start, hf.inBounds_iff, length_grow, List.length_replicate]
      exact le_max_left _ _
    rw [← htaken hroom, hout, start]
    rw [hout, start] at hroom
    exact hf.taken hroom
  · rintro rfl buffer length ec
    obtain ⟨s, hs, hret⟩ := h.serialize buffer length ec
    obtain ⟨f, hf, hout⟩ := serialize_emits hs hret
    refine ⟨s, hs, hret, fun hroom => ?_⟩
    rw [hout, start] at hroom ⊢
    exact hf.taken hroom

end Serializer

/-- What is written for the packet is read, and leaves a packet as wanted. -/
def RoundTrips (reads : List Call → ControlPacket → Prop) (packet : ControlPacket)
    (Wanted : PacketBody → Prop) : Prop :=
  ∃ bytes, Serializer.Writes packet bytes ∧ ∀ calls : List Call, calls.map Call.byte = bytes →
    ∃ header body, reads calls ⟨header, body⟩ ∧ Wanted body

theorem roundTrips_iff {reads : List Call → ControlPacket → Prop} {packet : ControlPacket}
    (h : Serializer.Serializable packet) {Wanted : PacketBody → Prop} :
    RoundTrips reads packet Wanted ↔
      ∀ calls : List Call, calls.map Call.byte = packet.body.frame →
        ∃ header body, reads calls ⟨header, body⟩ ∧ Wanted body := by
  constructor
  · rintro ⟨bytes, hwrites, hread⟩
    rw [Serializer.writes_iff h] at hwrites
    rwa [hwrites] at hread
  · intro hread
    exact ⟨_, (Serializer.writes_iff h).mpr rfl, hread⟩

theorem map_callsFor (bytes : Bytes) : (callsFor bytes).map Call.byte = bytes := by
  rw [callsFor, List.map_map]
  exact List.map_id bytes

/-- A length that is read stands at the front of the bytes. -/
theorem RunlengthDecoder.read_split {d : RunlengthDecoder} {bytes rest : Bytes} {length : UInt32} :
    read d bytes = some (length, rest) ↔
      ∃ front, bytes = front ++ rest ∧ read d front = some (length, []) := by
  induction bytes generalizing d with
  | nil =>
    simp only [read, reduceCtorEq, false_iff]
    rintro ⟨front, hfront, h⟩
    obtain ⟨rfl, -⟩ := List.append_eq_nil_iff.mp hfront.symm
    cases h
  | cons byte bytes ih =>
    constructor
    · intro h
      rw [read] at h
      split at h
      · rename_i hlast
        obtain ⟨rfl, rfl⟩ := Prod.mk.inj (Option.some.inj h)
        exact ⟨[byte], rfl, by rw [read, if_pos hlast]⟩
      · rename_i hlast
        split at h
        · rename_i hmore
          obtain ⟨front, rfl, hfront⟩ := ih.mp h
          exact ⟨byte :: front, rfl, by rw [read, if_neg hlast, if_pos hmore, hfront]⟩
        · cases h
    · rintro ⟨front, hbytes, h⟩
      cases front with
      | nil => cases h
      | cons first front =>
        obtain ⟨rfl, rfl⟩ := List.cons.inj hbytes
        rw [read] at h ⊢
        split
        · rename_i hlast
          rw [if_pos hlast] at h
          obtain ⟨rfl, rfl⟩ := Prod.mk.inj (Option.some.inj h)
          rfl
        · rename_i hlast
          rw [if_neg hlast] at h
          split
          · rename_i hmore
            rw [if_pos hmore] at h
            exact ih.mpr ⟨front, rfl, h⟩
          · rename_i hmore
            rw [if_neg hmore] at h
            cases h

/-- The fixed header of some bytes that begin with a valid one. -/
theorem fixedHeader_of_bytes {calls : List Call} {first : UInt8} {bytes rest : Bytes}
    {length : UInt32} (hcalls : calls.map Call.byte = first :: bytes)
    (hvalid : (FixedHeader.validate ⟨.ofByte first, first &&& 0x0F, 0⟩ none).1 = true)
    (hlength : RunlengthDecoder.read {} bytes = some (length, rest)) :
    ∃ body, body.map Call.byte = rest ∧
      fixedHeader calls = some (⟨.ofByte first, first &&& 0x0F, length⟩, body) := by
  obtain ⟨lengthBytes, rfl, hfront⟩ := RunlengthDecoder.read_split.mp hlength
  obtain ⟨call, tail, rfl, rfl, htail⟩ := List.map_eq_cons_iff.mp hcalls
  obtain ⟨lengthCalls, body, rfl, rfl, rfl⟩ := List.map_eq_append_iff.mp htail
  exact ⟨body, rfl, fixedHeader_eq_some_iff.mpr
    ⟨call, lengthCalls, length, rfl, hvalid, hfront, rfl⟩⟩

/-- The bytes of a run that has a fixed header. -/
theorem bytes_of_fixedHeader {calls body : List Call} {header : FixedHeader} {first : UInt8}
    {bytes : Bytes} (h : fixedHeader calls = some (header, body))
    (hcalls : calls.map Call.byte = first :: bytes) :
    (FixedHeader.validate ⟨.ofByte first, first &&& 0x0F, 0⟩ none).1 = true ∧
      header = ⟨.ofByte first, first &&& 0x0F, header.length⟩ ∧
      RunlengthDecoder.read {} bytes = some (header.length, body.map Call.byte) := by
  obtain ⟨call, lengthCalls, length, rfl, hvalid, hlength, rfl⟩ := fixedHeader_eq_some_iff.mp h
  rw [List.map_cons, List.map_append] at hcalls
  obtain ⟨rfl, rfl⟩ := List.cons.inj hcalls
  exact ⟨hvalid, rfl, RunlengthDecoder.read_split.mpr ⟨_, rfl, hlength⟩⟩

/-- What the parser delivers for a header is of the class that it says. -/
theorem MQTTParser.afterHeader_typed {sort : TopicFilters → TopicFilters} {p : MQTTParser}
    {body rest : List Call} {packet : ControlPacket}
    (h : (afterHeader sort p body).map (·.packet) = .accepted (some packet) rest) :
    packet.header = p.fixedHeaderParser.header ∧
      packet.body.controlPacketType = p.fixedHeaderParser.header.controlPacketType := by
  have htyped : ∀ {Q : Type} {o : Outcome Q} {f : Q → PacketBody},
      (o.map fun q => some ⟨p.fixedHeaderParser.header, f q⟩) = .accepted (some packet) rest →
      (∀ q, (f q).controlPacketType = p.fixedHeaderParser.header.controlPacketType) →
      packet.header = p.fixedHeaderParser.header ∧
        packet.body.controlPacketType = p.fixedHeaderParser.header.controlPacketType := by
    intro Q o f hmap hf
    obtain ⟨q, -, hq⟩ := Outcome.map_eq_accepted.mp hmap
    obtain rfl := Option.some.inj hq
    exact ⟨rfl, hf q⟩
  cases ht : p.fixedHeaderParser.header.controlPacketType with
  | connect =>
    rw [afterHeader, dispatch_connect ht] at h
    dsimp only at h
    rw [outcome_connect sort rfl] at h
    rw [← ht]
    exact htyped h fun _ => ht.symm
  | connack =>
    rw [afterHeader, dispatch_connack ht] at h
    dsimp only at h
    rw [outcome_connAck sort rfl] at h
    rw [← ht]
    exact htyped h fun _ => ht.symm
  | publish =>
    rw [afterHeader, dispatch_publish ht] at h
    dsimp only at h
    rw [outcome_publish sort rfl] at h
    rw [← ht]
    exact htyped h fun _ => ht.symm
  | subscribe =>
    rw [afterHeader, dispatch_subscribe ht] at h
    dsimp only at h
    rw [outcome_subscribe sort rfl] at h
    rw [← ht]
    exact htyped h fun _ => ht.symm
  | suback =>
    rw [afterHeader, dispatch_suback ht] at h
    dsimp only at h
    rw [outcome_subAck sort rfl] at h
    rw [← ht]
    exact htyped h fun _ => ht.symm
  | pingreq | pingresp | disconnect =>
    rw [afterHeader, dispatch_bodyless (by rw [ht, bodyless])] at h
    obtain rfl := Option.some.inj (Outcome.accepted.inj h).1
    exact ⟨rfl, rfl⟩
  | none | reserved | puback | pubrec | pubrel | pubcomp | unsubscribe | unsuback =>
    obtain ⟨e, he⟩ := dispatch_unhandled (p := p) (by simp [ht, Handled]) none
    rw [afterHeader, he] at h
    cases h

/-- **What is read of a frame has its header, and is of the class it says.** -/
theorem MQTTParser.typed_of_reads {sort : TopicFilters → TopicFilters} {p : MQTTParser}
    {calls body : List Call} {packet : ControlPacket} {header : FixedHeader}
    (h : Reads sort p.reset calls packet) (hheader : fixedHeader calls = some (header, body)) :
    packet.header = header ∧ packet.body.controlPacketType = header.controlPacketType := by
  obtain ⟨front, last, hp, rfl, rfl, hrun⟩ := outcome_frame sort p hheader
  rw [reads_iff_outcome, hrun] at h
  exact afterHeader_typed (p := { p.reset with fixedHeaderParser := hp }) h

/-- A frame that is read has a valid first byte and the body that its bytes
say. -/
theorem MQTTParser.header_of_frame {sort : TopicFilters → TopicFilters} {p : MQTTParser}
    {calls : List Call} {packet : ControlPacket} (h : Reads sort p.reset calls packet)
    {first : UInt8} {lengthBytes bytes : Bytes} {length : UInt32}
    (hcalls : calls.map Call.byte = first :: (lengthBytes ++ bytes))
    (hlength : RunlengthDecoder.read {} lengthBytes = some (length, [])) :
    ∃ body, body.map Call.byte = bytes ∧
      (FixedHeader.validate ⟨.ofByte first, first &&& 0x0F, 0⟩ none).1 = true ∧
      fixedHeader calls = some (⟨.ofByte first, first &&& 0x0F, length⟩, body) ∧
      body.length = acceptLength ⟨.ofByte first, first &&& 0x0F, length⟩ := by
  obtain ⟨header, body, hheader, haccept⟩ := header_of_reads h
  obtain ⟨hvalid, -⟩ := bytes_of_fixedHeader hheader hcalls
  obtain ⟨body', rfl, hheader'⟩ := fixedHeader_of_bytes hcalls hvalid
    (RunlengthDecoder.read_split.mpr ⟨lengthBytes, rfl, hlength⟩)
  obtain ⟨rfl, rfl⟩ := Prod.mk.inj (Option.some.inj (hheader.symm.trans hheader'))
  exact ⟨body, rfl, hvalid, hheader, haccept⟩

/-- A remaining length that is minimal is as `RunlengthEncoder` writes it. -/
theorem RunlengthDecoder.read_minimal {lengthBytes : Bytes} {length : UInt32}
    (h : read {} lengthBytes = some (length, [])) (hminimal : Base128.Minimal lengthBytes) :
    length.toNat < 2 ^ 28 ∧ lengthBytes = Base128.encode 4 length.toNat := by
  rw [read_new] at h
  obtain ⟨⟨n, rest⟩, hdecode, hpair⟩ := Option.map_eq_some_iff.mp h
  obtain ⟨rfl, rfl⟩ := Prod.mk.inj hpair
  have hn : n < 2 ^ 28 := Base128.decode_lt hdecode
  have hmod : (UInt32.ofNat n).toNat = n := by
    rw [UInt32.toNat_ofNat']
    omega
  show (UInt32.ofNat n).toNat < 2 ^ 28 ∧ lengthBytes = Base128.encode 4 (UInt32.ofNat n).toNat
  rw [hmod]
  exact ⟨hn, Base128.encode_of_decode hminimal hdecode⟩

/-- The fixed header of a frame whose length fits. -/
theorem fixedHeader_of_frame {calls : List Call} {body : PacketBody}
    (hcalls : calls.map Call.byte = body.frame)
    (hfits : body.bytes.length < if body.IsSubAck then 128 else 2 ^ 28)
    (hvalid : (FixedHeader.validate
      ⟨.ofByte body.firstByte, body.firstByte &&& 0x0F, 0⟩ none).1 = true) :
    ∃ header bodyCalls, fixedHeader calls = some (header, bodyCalls) ∧
      header.controlPacketType = .ofByte body.firstByte ∧
      header.flags = body.firstByte &&& 0x0F ∧
      bodyCalls.map Call.byte = body.bytes ∧ bodyCalls.length = header.length.toNat := by
  obtain ⟨hread, hlength⟩ := (PacketBody.lengthFits_iff body _ _).mpr ⟨hfits, rfl, rfl⟩
  obtain ⟨bodyCalls, hbody, hheader⟩ := fixedHeader_of_bytes hcalls hvalid hread
  refine ⟨_, bodyCalls, hheader, rfl, rfl, hbody, ?_⟩
  rw [← List.length_map (f := Call.byte), hbody]
  exact hlength.symm

/-! ## §2 CONNECT -/

/-- What holds of the 256 bytes holds of every byte. -/
theorem forall_byte {P : UInt8 → Prop} (h : ∀ n : Fin 256, P (UInt8.ofNat n.val)) (b : UInt8) :
    P b := by
  have hb := h ⟨b.toNat, b.toNat_lt⟩
  rwa [UInt8.ofNat_toNat] at hb

/-- Of the flags that are read, the upper bit of the will's quality of service
is not written again. -/
theorem flags_setFlags (packet : ConnectControlPacket) (flags : UInt8) :
    (ConnectParser.setFlags packet flags).flags = flags &&& 0xEE := by
  have h : ∀ n : Fin 256, (ConnectParser.setFlags {} (UInt8.ofNat n.val)).flags =
      UInt8.ofNat n.val &&& 0xEE := by decide +kernel
  exact forall_byte (P := fun flags =>
    (ConnectParser.setFlags packet flags).flags = flags &&& 0xEE) h flags

theorem flags_kept_iff {flags : UInt8} (h : flags &&& 0x01 = 0) :
    flags &&& 0xEE = flags ↔ flags &&& 0x10 = 0 := by
  revert h
  exact forall_byte (P := fun flags => flags &&& 0x01 = 0 →
    (flags &&& 0xEE = flags ↔ flags &&& 0x10 = 0)) (by decide +kernel) flags

theorem firstByte_connect {first : UInt8}
    (h : (FixedHeader.validate ⟨.ofByte first, first &&& 0x0F, 0⟩ none).1 = true)
    (hconnect : ControlPacketType.ofByte first = .connect) : first = 0x10 := by
  have hflags : first &&& 0x0F = 0 := by
    by_contra hflags
    rw [hconnect] at h
    simp [FixedHeader.validate, hflags] at h
  exact forall_byte (P := fun first => ControlPacketType.ofByte first = .connect →
    first &&& 0x0F = 0 → first = 0x10) (by decide +kernel) first hconnect hflags

/-- The strings of the will, as they are read and as they are written. -/
def ConnectControlPacket.willBytes (c : ConnectControlPacket) : Bytes :=
  if c.willFlag then stringBytes c.willTopic ++ stringBytes c.willMessage else []

theorem authorizationOutcome_accepted {packet q : ConnectControlPacket} {bytes : Bytes}
    {rest : List Call} (h : authorizationOutcome packet bytes = .accepted q rest) :
    bytes = (if packet.userNameFlag then stringBytes q.userName ++ stringBytes q.password
      else []) ∧ q = { packet with userName := q.userName, password := q.password } := by
  have hended : ∀ {packet : ConnectControlPacket} {bytes : Bytes},
      ended packet bytes = .accepted q rest → bytes = [] ∧ packet = q := by
    intro packet bytes h
    unfold ended at h
    split at h
    · exact ⟨‹_›, (Outcome.accepted.inj h).1⟩
    · cases h
  rcases Bool.eq_false_or_eq_true packet.userNameFlag with huser | huser
  · rw [authorizationOutcome_user huser] at h
    obtain ⟨userName, tail, htake, h⟩ :=
      (afterString_holds (P := fun o => o = .accepted q rest) (by simp)).mp h
    obtain ⟨password, tail', htake', h⟩ :=
      (afterString_holds (P := fun o => o = .accepted q rest) (by simp)).mp h
    obtain ⟨rfl, rfl⟩ := hended h
    rw [(takeString_eq_some_iff.mp htake).2, (takeString_eq_some_iff.mp htake').2, if_pos huser,
      List.append_nil]
    exact ⟨rfl, rfl⟩
  · rw [authorizationOutcome_none huser] at h
    obtain ⟨rfl, rfl⟩ := hended h
    rw [if_neg (by simp [huser])]
    exact ⟨rfl, rfl⟩

/-- **What an accepted CONNECT body has behind the client identifier.** -/
theorem optionalOutcome_accepted {packet q : ConnectControlPacket} {bytes : Bytes}
    {rest : List Call} (h : optionalOutcome packet bytes = .accepted q rest) :
    bytes = q.willBytes ++ (if q.userNameFlag then stringBytes q.userName ++ stringBytes q.password
      else []) ∧
      q = { packet with
        willTopic := q.willTopic
        willMessage := q.willMessage
        userName := q.userName
        password := q.password } := by
  unfold ConnectControlPacket.willBytes
  rcases Bool.eq_false_or_eq_true packet.willFlag with hwill | hwill
  · rw [optionalOutcome_will hwill] at h
    obtain ⟨willTopic, tail, htake, h⟩ :=
      (afterString_holds (P := fun o => o = .accepted q rest) (by simp)).mp h
    obtain ⟨willMessage, tail', htake', h⟩ :=
      (afterString_holds (P := fun o => o = .accepted q rest) (by simp)).mp h
    obtain ⟨htail, hq⟩ := authorizationOutcome_accepted h
    rw [(takeString_eq_some_iff.mp htake).2, (takeString_eq_some_iff.mp htake').2, htail, hq]
    simp [hwill]
  · rw [optionalOutcome_none hwill] at h
    obtain ⟨hbytes, hq⟩ := authorizationOutcome_accepted h
    rw [hbytes, hq]
    simp [hwill]

/-- **An accepted CONNECT body**, with the packet that is read from it. -/
theorem connectOutcome_accepted {uuid : Bytes} {packet q : ConnectControlPacket}
    {bytes clientId rest : Bytes} {flags : UInt8} (hhead : ConnectHead bytes flags clientId rest)
    (hid : clientId ≠ []) (h : connectOutcome uuid packet bytes = .accepted q []) :
    flags &&& 0x01 = 0 ∧ q.flags = flags &&& 0xEE ∧
      q.userNameFlag = (flags &&& 0x80 ≠ 0 : Bool) ∧ q.passwordFlag = (flags &&& 0x40 ≠ 0 : Bool) ∧
      bytes = [0, 4, 0x4D, 0x51, 0x54, 0x54] ++ [0x04, flags, msb q.keepAlive, lsb q.keepAlive] ++
        stringBytes q.clientId ++ (q.willBytes ++ if q.userNameFlag then
          stringBytes q.userName ++ stringBytes q.password else []) := by
  have hundecided : Outcome.undecided ≠ Outcome.accepted q [] := by simp
  have hrefused : Outcome.refused ≠ Outcome.accepted q [] := by simp
  obtain ⟨tail, hname, h⟩ :=
    (connectOutcome_holds (P := fun o => o = .accepted q []) hundecided hrefused _ _ _).mp h
  obtain ⟨flags', msb', lsb', idBytes, rfl, hreserved, h⟩ :=
    (flagsOutcome_holds (P := fun o => o = .accepted q []) hundecided hrefused _ _ _).mp h
  obtain ⟨clientId', rest', htake, -, h⟩ :=
    (clientIdOutcome_holds (P := fun o => o = .accepted q []) hundecided hrefused _ _ _).mp h
  obtain ⟨rfl, rfl, rfl⟩ := hhead.unique ⟨msb', lsb', idBytes, hname, hreserved, htake⟩
  obtain ⟨hrest, hq⟩ := optionalOutcome_accepted h
  rw [if_neg hid] at hq
  have hkeepAlive : q.keepAlive = join msb' lsb' := by rw [hq]
  have hclientId : q.clientId = clientId := by rw [hq]
  refine ⟨hreserved, ?_, by rw [hq]; rfl, by rw [hq]; rfl, ?_⟩
  · rw [hq]
    exact flags_setFlags packet flags
  · rw [(takeString_eq_some_iff.mp hname).2, (takeString_eq_some_iff.mp htake).2, hrest, hkeepAlive,
      hclientId, msb_join, lsb_join]
    rfl

/-- Frames with the same first byte are the same if their bodies are. -/
theorem frames_eq_iff (body : PacketBody) {n : Nat} {bytes : Bytes} (hn : n < 2 ^ 28)
    (hlength : bytes.length = n)
    (hencoded : body.lengthBytes = Base128.encode 5 (body.bytes.length % 2 ^ 32)) :
    body.firstByte :: (Base128.encode 4 n ++ bytes) = body.frame ↔ bytes = body.bytes := by
  rw [PacketBody.frame, hencoded, List.cons.injEq, and_iff_right rfl]
  have hread : Base128.decode 4 (Base128.encode 4 n ++ bytes) = some (n, bytes) :=
    Base128.decode_encode (k := 3) hn bytes
  constructor
  · intro h
    rw [h] at hread
    by_cases hfits : body.bytes.length % 2 ^ 32 < 128 ^ 4
    · rw [Base128.encode_eq hfits (by decide) (by decide),
        Base128.decode_encode (k := 3) hfits] at hread
      exact (Prod.mk.inj (Option.some.inj hread)).2.symm
    · rw [Base128.decode_encode_large (Nat.not_lt.mp hfits) (by decide)] at hread
      cases hread
  · rintro rfl
    rw [← Base128.encode_eq (j := 5) (k := 4) hn (by decide) (by decide), hlength]
    congr 2
    omega

/-- The strings of the authorization are written as they were read if the two
flags agree. -/
theorem authorization_kept_iff (c : ConnectControlPacket) :
    (if c.userNameFlag then stringBytes c.userName ++ stringBytes c.password else []) =
        (if c.userNameFlag then stringBytes c.userName else []) ++
          (if c.passwordFlag then stringBytes c.password else []) ↔
      c.userNameFlag = c.passwordFlag := by
  cases c.userNameFlag <;> cases c.passwordFlag <;> simp [stringBytes]

/-- **A CONNECT frame is written as it was read if and only if** the upper bit
of the will's quality of service is not set and the flags for user name and
password agree. -/
theorem connect_roundTrip_iff {sort : TopicFilters → TopicFilters} {calls : List Call}
    {packet : ControlPacket} (hread : MQTTParser.Reads sort .new calls packet) {first : UInt8}
    {lengthBytes body : Bytes} {length : UInt32}
    (hcalls : calls.map Call.byte = first :: (lengthBytes ++ body))
    (hconnect : ControlPacketType.ofByte first = .connect)
    (hlength : RunlengthDecoder.read {} lengthBytes = some (length, []))
    (hminimal : Base128.Minimal lengthBytes) {flags : UInt8} {clientId rest : Bytes}
    (hhead : ConnectHead body flags clientId rest) (hid : clientId ≠ []) :
    Serializer.Writes packet (calls.map Call.byte) ↔
      flags &&& 0x10 = 0 ∧ (flags &&& 0x80 ≠ 0 ↔ flags &&& 0x40 ≠ 0) := by
  obtain ⟨bodyCalls, rfl, hvalid, hheader, haccept⟩ :=
    MQTTParser.header_of_frame (p := .new) hread hcalls hlength
  have hsize : bodyCalls.length = length.toNat := by
    rw [haccept, MQTTParser.acceptLength, hconnect]
  obtain ⟨uuid, hpacket⟩ : ∃ uuid, MQTTParser.Reads sort MQTTParser.new.reset calls packet ↔ _ :=
    MQTTParser.reads_connect hheader hsize hconnect
  obtain ⟨q, hq, rfl⟩ := hpacket.mp hread
  obtain ⟨hreserved, hflags, huser, hpassword, hbody⟩ := connectOutcome_accepted hhead hid hq
  obtain ⟨hn, hbytes⟩ := RunlengthDecoder.read_minimal hlength hminimal
  have hwrites : Serializer.Serializable
      ⟨⟨.ofByte first, first &&& 0x0F, length⟩, .connect q⟩ := ⟨hconnect.symm, by simp⟩
  rw [Serializer.writes_iff hwrites, hcalls, hbytes, firstByte_connect hvalid hconnect]
  refine (frames_eq_iff (.connect q) hn ?_ rfl).trans ?_
  · rw [List.length_map, hsize]
  have hsame : (q.userNameFlag = q.passwordFlag) ↔ (flags &&& 0x80 ≠ 0 ↔ flags &&& 0x40 ≠ 0) := by
    rw [huser, hpassword, decide_eq_decide]
  rw [← flags_kept_iff hreserved, ← hsame, ← authorization_kept_iff, eq_comm (b := flags), hbody,
    PacketBody.bytes_connect, hflags, ConnectControlPacket.willBytes]
  simp only [List.append_assoc, List.cons_append, List.nil_append, List.append_cancel_left_eq,
    List.cons.injEq, true_and]

/-- A CONNECT packet for the client `a`, with nothing but a keep alive time. -/
def plainConnect : ConnectControlPacket :=
  { protocolLevel := 4, keepAlive := 60, clientId := [0x61] }

theorem connect_roundTrip_iff_plain :
    Serializer.Writes ⟨⟨.connect, 0, 13⟩, .connect plainConnect⟩
        ((callsFor (PacketBody.connect plainConnect).frame).map Call.byte) ↔
      (0 : UInt8) &&& 0x10 = 0 ∧ ((0 : UInt8) &&& 0x80 ≠ 0 ↔ (0 : UInt8) &&& 0x40 ≠ 0) :=
  connect_roundTrip_iff
    (show MQTTParser.Reads id .new (callsFor (PacketBody.connect plainConnect).frame) _ by decide)
    (show _ = 0x10 :: ([13] ++ (PacketBody.connect plainConnect).bytes) by decide) (by decide)
    (show RunlengthDecoder.read {} [13] = some (13, []) by decide) (by decide)
    (show ConnectHead (PacketBody.connect plainConnect).bytes 0 [0x61] [] from
      ⟨0, 60, [0, 1, 0x61], by decide, by decide, by decide⟩) (by decide)

/-- A CONNECT packet with a will of quality of service 2. -/
def willFrame : Bytes :=
  [0x10, 19, 0, 4, 0x4D, 0x51, 0x54, 0x54, 4, 0x14, 0, 60, 0, 1, 0x61, 0, 1, 0x74, 0, 1, 0x6D]

/-- The quality of service of that will is lost. -/
theorem connect_roundTrip_fails :
    ¬ ∀ (calls : List Call) (packet : ControlPacket) (lengthBytes body : Bytes) (length : UInt32)
      (flags : UInt8) (clientId rest : Bytes), MQTTParser.Reads id .new calls packet →
      calls.map Call.byte = 0x10 :: (lengthBytes ++ body) →
      RunlengthDecoder.read {} lengthBytes = some (length, []) → Base128.Minimal lengthBytes →
      ConnectHead body flags clientId rest → clientId ≠ [] →
      Serializer.Writes packet (calls.map Call.byte) := by
  intro h
  have hwrites := h (callsFor willFrame)
    ⟨⟨.connect, 0, 19⟩, .connect { plainConnect with
      willFlag := true, willTopic := [0x74], willMessage := [0x6D] }⟩
    [19] (willFrame.drop 2) 19 0x14 [0x61] [0, 1, 0x74, 0, 1, 0x6D] (by decide) (by decide)
    (by decide) (by decide) ⟨0, 60, [0, 1, 0x61, 0, 1, 0x74, 0, 1, 0x6D], by decide, by decide,
      by decide⟩ (by decide)
  rw [Serializer.writes_iff ⟨rfl, by simp⟩] at hwrites
  revert hwrites
  decide

/-! ## §3 PUBLISH -/

/-- A remaining length that is read has at most 28 bits. -/
theorem fixedHeader_length_lt {calls body : List Call} {header : FixedHeader}
    (h : fixedHeader calls = some (header, body)) : header.length.toNat < 2 ^ 28 := by
  obtain ⟨call, lengthCalls, length, -, -, hread, rfl⟩ := fixedHeader_eq_some_iff.mp h
  rw [RunlengthDecoder.read_new] at hread
  obtain ⟨⟨n, left⟩, hdecode, hpair⟩ := Option.map_eq_some_iff.mp hread
  obtain ⟨rfl, -⟩ := Prod.mk.inj hpair
  have hn : n < 2 ^ 28 := Base128.decode_lt hdecode
  show (UInt32.ofNat n).toNat < 2 ^ 28
  rw [UInt32.toNat_ofNat']
  omega

/-- The message of a PUBLISH packet. -/
def PacketBody.IsMessage (message : PublishControlPacket) (body : PacketBody) : Prop :=
  ∃ publish, body = .publish publish ∧ publish.topicName = message.topicName ∧
    publish.payload = message.payload

/-- A PUBLISH packet as it is relayed: for every sender, the broker adds copies
of the packet to what it has sent. -/
theorem Broker.doProcessPublish_sent (b : Broker) (packet : ControlPacket)
    (publish : PublishControlPacket) (ec : ErrorCode) (sender : SenderId) :
    ∃ n, (b.doProcessPublish packet publish ec).broker.sent sender =
      b.sent sender ++ List.replicate n packet := by
  unfold doProcessPublish
  dsimp only
  split
  · split
    · exact ⟨0, by simp⟩
    · exact ⟨_, rfl⟩
  · exact ⟨0, by simp⟩

/-- A body as it is written, with quality of service 0. -/
theorem publishOutcome_message {packet publish : PublishControlPacket}
    (htopic : (publish.topicName.validate none).1 = true)
    (hname : publish.topicName.name.length < 2 ^ 16) :
    publishOutcome .atMostOnce packet (PacketBody.publish publish).bytes =
      if publish.payload = [] then .undecided
      else .accepted ⟨publish.topicName, packet.packetIdentifier,
        packet.payload ++ publish.payload⟩ [] := by
  have hbytes : (PacketBody.publish publish).bytes =
      stringBytes publish.topicName.name ++ publish.payload := by
    simp [PacketBody.bytes, PacketBody.fields]
  rw [hbytes, publishOutcome, afterString_some (takeString_stringBytes hname _)]
  rw [if_neg (by rw [htopic]; simp), if_neg (by decide)]

theorem publish_roundTrips_iff {sort : TopicFilters → TopicFilters} {header : FixedHeader}
    {publish : PublishControlPacket} (htype : header.controlPacketType = .publish)
    (htopic : (publish.topicName.validate none).1 = true)
    (hname : publish.topicName.name.length < 2 ^ 16)
    (hfits : (PacketBody.publish publish).bytes.length < 2 ^ 28) :
    RoundTrips (MQTTParser.Reads sort .new) ⟨header, .publish publish⟩
        (PacketBody.IsMessage publish) ↔
      publish.payload ≠ [] := by
  have hwrites : Serializer.Serializable ⟨header, .publish publish⟩ := ⟨htype.symm, by simp⟩
  rw [roundTrips_iff hwrites]
  -- what a fresh parser does with the frame
  have hreads : ∀ calls : List Call, calls.map Call.byte = (PacketBody.publish publish).frame →
      ∃ header', ∀ packet, MQTTParser.Reads sort .new calls packet ↔
        publish.payload ≠ [] ∧ packet = ⟨header', .publish ⟨publish.topicName, 0,
          publish.payload⟩⟩ := by
    intro calls hcalls
    obtain ⟨header', body, hheader, htype', hflags', hbody, hlength⟩ :=
      fixedHeader_of_frame hcalls (show _ < if False then 128 else 2 ^ 28 by simpa)
        (show (FixedHeader.validate ⟨.ofByte 0x30, 0x30 &&& 0x0F, 0⟩ none).1 = true by decide)
    have htype' : header'.controlPacketType = .publish :=
      htype'.trans (show ControlPacketType.ofByte 0x30 = .publish by decide)
    have hqos : QoSLevel.ofBits ((header'.flags &&& 0x06) >>> 1) = .atMostOnce := by
      rw [hflags']
      show QoSLevel.ofBits (((0x30 &&& 0x0F : UInt8) &&& 0x06) >>> 1) = .atMostOnce
      decide
    refine ⟨header', fun packet =>
      (MQTTParser.reads_publish (p := .new) hheader hlength htype').trans ?_⟩
    rw [hqos, hbody, publishOutcome_message htopic hname]
    by_cases hnil : publish.payload = []
    · simp [hnil]
    · rw [if_neg hnil, and_iff_right hnil]
      constructor
      · rintro ⟨q, hq, rfl⟩
        obtain rfl := (Outcome.accepted.inj hq).1
        rfl
      · rintro rfl
        exact ⟨_, rfl, rfl⟩
  constructor
  · intro h
    obtain ⟨header', body, hread, -⟩ := h _ (map_callsFor _)
    obtain ⟨header'', hread'⟩ := hreads _ (map_callsFor _)
    exact ((hread' _).mp hread).1
  · intro hpayload calls hcalls
    obtain ⟨header', hread⟩ := hreads calls hcalls
    exact ⟨header', _, (hread _).mpr ⟨hpayload, rfl⟩, _, rfl, rfl, rfl⟩

/-- **A message that is relayed arrives if and only if it has a payload.** -/
theorem publish_relay_iff {sort : TopicFilters → TopicFilters} {calls : List Call}
    {header : FixedHeader} {publish : PublishControlPacket}
    (hread : MQTTParser.Reads sort .new calls ⟨header, .publish publish⟩) :
    (∀ (b : Broker) (ec : ErrorCode) (sender : SenderId), ∃ n,
      (b.doProcessPublish ⟨header, .publish publish⟩ publish ec).broker.sent sender =
        b.sent sender ++ List.replicate n ⟨header, .publish publish⟩) ∧
    (RoundTrips (MQTTParser.Reads sort .new) ⟨header, .publish publish⟩
        (PacketBody.IsMessage publish) ↔
      publish.payload ≠ []) := by
  refine ⟨fun b ec sender => b.doProcessPublish_sent _ publish ec sender, ?_⟩
  -- what was read
  obtain ⟨header', body, hheader, haccept⟩ := MQTTParser.header_of_reads (p := .new) hread
  obtain ⟨hsame, hclass⟩ := MQTTParser.typed_of_reads (p := .new) hread hheader
  obtain rfl : header = header' := hsame
  have htype : header.controlPacketType = .publish := hclass.symm
  have hlength : body.length = header.length.toNat := by
    rw [haccept, MQTTParser.acceptLength, htype]
  obtain ⟨q, hq, heq⟩ := (MQTTParser.reads_publish (p := .new) hheader hlength htype).mp hread
  obtain rfl : publish = q := by simpa using heq
  obtain ⟨-, topicName, identifier, payload, ⟨hwild, tail, htake, hgrammar⟩, -, rfl⟩ :=
    publishOutcome_accepted_iff.mp hq
  -- what is written is not longer
  have hname := (takeString_eq_some_iff.mp htake).1
  have htail : payload.length ≤ tail.length := by
    cases identifier with
    | none => rw [hgrammar.2]
    | some id =>
      obtain ⟨-, msb, lsb, rfl, -⟩ := hgrammar
      simp
      omega
  have hbody := takeString_length htake
  have hlimit := fixedHeader_length_lt hheader
  refine publish_roundTrips_iff htype ((TopicName.validate_iff topicName).mpr hwild) hname ?_
  rw [List.length_map, hlength] at hbody
  simp only [PacketBody.bytes, PacketBody.fields, List.flatMap_cons, List.flatMap_nil,
    Field.bytes_string, Field.bytes_plain, List.length_append, length_stringBytes, List.append_nil,
    List.nil_append]
  show 2 + topicName.length + payload.length < 2 ^ 28
  omega

/-- A PUBLISH packet with the payload `x`. -/
theorem publish_relay_iff_payload :
    (∀ (b : Broker) (ec : ErrorCode) (sender : SenderId), ∃ n,
      (b.doProcessPublish ⟨⟨.publish, 0, 4⟩, .publish ⟨⟨[0x61]⟩, 0, [0x78]⟩⟩
        ⟨⟨[0x61]⟩, 0, [0x78]⟩ ec).broker.sent sender =
        b.sent sender ++ List.replicate n ⟨⟨.publish, 0, 4⟩, .publish ⟨⟨[0x61]⟩, 0, [0x78]⟩⟩) ∧
    (RoundTrips (MQTTParser.Reads id .new) ⟨⟨.publish, 0, 4⟩, .publish ⟨⟨[0x61]⟩, 0, [0x78]⟩⟩
      (PacketBody.IsMessage ⟨⟨[0x61]⟩, 0, [0x78]⟩) ↔ ([0x78] : Bytes) ≠ []) :=
  publish_relay_iff (show MQTTParser.Reads id .new (callsFor [0x30, 4, 0, 1, 0x61, 0x78]) _ by decide)

/-- With an identifier, an empty payload is read and is relayed in vain. -/
theorem publish_relay_fails :
    ¬ ∀ (calls : List Call) (header : FixedHeader) (publish : PublishControlPacket),
      MQTTParser.Reads id .new calls ⟨header, .publish publish⟩ →
      RoundTrips (MQTTParser.Reads id .new) ⟨header, .publish publish⟩
        (PacketBody.IsMessage publish) := by
  intro h
  have hread : MQTTParser.Reads id .new (callsFor [0x32, 5, 0, 1, 0x61, 0, 7])
      ⟨⟨.publish, 2, 5⟩, .publish ⟨⟨[0x61]⟩, 7, []⟩⟩ := by decide
  have htrip := (publish_roundTrips_iff rfl (by decide) (by decide) (by decide)).mp (h _ _ _ hread)
  exact htrip rfl

/-! ## §4 SUBACK -/

namespace MQTTParser

/-- Exactly the last call returns true, and it leaves the packet. -/
def Accepts (sort : TopicFilters → TopicFilters) (p : MQTTParser) (calls : List Call)
    (packet : ControlPacket) : Prop :=
  ∃ front last, calls = front ++ [last] ∧
    (∀ a ∈ (machine sort).outputs p front, a.1 ≠ .det true) ∧
    (machine sort ((machine sort).after p front) last).1.1 = .det true ∧
    (machine sort ((machine sort).after p front) last).2.packet = some packet

variable {sort : TopicFilters → TopicFilters} {p : MQTTParser} {calls : List Call}
  {packet : ControlPacket}

theorem Reads.accepts (h : Reads sort p calls packet) : Accepts sort p calls packet := by
  obtain ⟨front, last, rfl, hfront, hlast⟩ := h
  exact ⟨front, last, rfl, fun a ha => by simp [hfront a ha], hlast⟩

/-- In a body no call fails before one that accepts. -/
theorem undecided_of_remaining {last : Call} (front : List Call) :
    ∀ (p : MQTTParser) (k : Nat), p.Sound → p.remaining = some k →
    (∀ a ∈ (machine sort).outputs p front, a.1 ≠ .det true) →
    (machine sort ((machine sort).after p front) last).1.1 = .det true →
    ∀ a ∈ (machine sort).outputs p front, a.1 = .indeterminate := by
  induction front with
  | nil => simp
  | cons call front ih =>
    intro p k hp hk hbefore htrue
    obtain ⟨hcall, hrest⟩ := List.forall_mem_cons.mp hbefore
    rw [Machine.outputs_cons, List.forall_mem_cons]
    cases hret : (p.parse sort call none).ret with
    | indeterminate =>
      obtain ⟨k', hk', -⟩ := (remaining_step hk sort call).2 (by simp [hret])
      exact ⟨hret, ih _ k' (hp.parse sort call).1 hk' hrest htrue⟩
    | det b =>
      cases b with
      | true => exact absurd hret hcall
      | false =>
        have hover : ¬ p.Overrun := fun h => by simp [remaining, h.1] at hk
        exact absurd htrue ((hp.dead hret hover).not_accepts sort front last)

/-- After a fifth length byte a SUBACK packet goes on with a body that has no
bytes, and no call accepts it. -/
theorem not_accepts_fifth {q : MQTTParser} (hs : q.status = .start)
    (hready : q.fixedHeaderParser.status = .ready)
    (htype : q.fixedHeaderParser.header.controlPacketType = .suback)
    (hzero : q.fixedHeaderParser.header.length = 0) (front : List Call) (last : Call)
    (hbefore : ∀ a ∈ (machine sort).outputs q front, a.1 ≠ .det true) :
    (machine sort ((machine sort).after q front) last).1.1 ≠ .det true := by
  intro htrue
  have hnext : ∀ c, machine sort q c = ((.indeterminate, none), { q with
      subAckParser := SubAckParser.reset q.subAckParser 0
      status := .subAck }) := by
    intro c
    rw [machine, parse_header_ready (p := q) hs hready, dispatch_suback htype]
    simp [ParseResult.answer, hzero]
  cases front with
  | nil => simp [hnext] at htrue
  | cons next front =>
    rw [Machine.outputs_cons, hnext] at hbefore
    rw [Machine.after_cons, hnext] at htrue
    have hend := accepted_at_end sort front _ 0 rfl (List.forall_mem_cons.mp hbefore).2 htrue
    omega

/-- In the fixed header of a SUBACK packet no call fails before one that
accepts: after a fifth length byte the body has no bytes. -/
theorem undecided_of_header {header : FixedHeader} {last : Call}
    (htype : header.controlPacketType = .suback) (hzero : header.length = 0) (front : List Call) :
    ∀ p : MQTTParser, p.status = .start → p.fixedHeaderParser.status = .readLength →
    p.fixedHeaderParser.header = header →
    (∀ a ∈ (machine sort).outputs p front, a.1 ≠ .det true) →
    (machine sort ((machine sort).after p front) last).1.1 = .det true →
    ∀ a ∈ (machine sort).outputs p front, a.1 = .indeterminate := by
  induction front with
  | nil => simp
  | cons call front ih =>
    intro p hs hread hheader hbefore htrue
    obtain ⟨-, hrest⟩ := List.forall_mem_cons.mp hbefore
    rw [Machine.outputs_cons, List.forall_mem_cons]
    obtain ⟨value, decoder, ⟨-, hd⟩ | ⟨-, hd⟩ | ⟨-, hd⟩⟩ :=
      p.fixedHeaderParser.decoder.decode_cases call.byte none
    · -- a fifth length byte
      have hr : p.fixedHeaderParser.parse call.byte none = ⟨.det false,
          some .malformedRemainingLength,
          { p.fixedHeaderParser with decoder := decoder, status := .ready }⟩ := by
        simp [FixedHeaderParser.parse, hread, hd]
      have hcall : (machine sort p call).2 = { p with
          fixedHeaderParser := { p.fixedHeaderParser with
            decoder := decoder
            status := .ready } } := by
        rw [machine, ParseResult.answer, parse_start_false hs (by rw [hr]), hr]
      rw [Machine.after_cons, hcall] at htrue
      rw [hcall] at hrest
      refine absurd htrue (not_accepts_fifth ?_ rfl ?_ ?_ front last hrest)
      · exact hs
      · exact (congrArg FixedHeader.controlPacketType hheader).trans htype
      · exact (congrArg FixedHeader.length hheader).trans hzero
    · have hr : p.fixedHeaderParser.parse call.byte none = ⟨.indeterminate, none,
          { p.fixedHeaderParser with decoder := decoder }⟩ := by
        simp [FixedHeaderParser.parse, hread, hd]
      have hcall : machine sort p call = ((.indeterminate, none), { p with
          fixedHeaderParser := { p.fixedHeaderParser with decoder := decoder } }) := by
        rw [machine, ParseResult.answer, parse_start_indeterminate hs (by rw [hr]), hr]
      rw [Machine.after_cons, hcall] at htrue
      rw [hcall] at hrest ⊢
      refine ⟨rfl, ih _ ?_ ?_ ?_ hrest htrue⟩
      · exact hs
      · exact hread
      · exact hheader
    · let hp : FixedHeaderParser := ⟨.ready, { header with length := value }, decoder⟩
      have hr : p.fixedHeaderParser.parse call.byte none = ⟨.det true, none, hp⟩ := by
        simp [FixedHeaderParser.parse, hread, hd, hheader, hp]
      have hparse : p.parse sort call none = { p with fixedHeaderParser := hp }.dispatch none := by
        rw [parse_start_true hs (by rw [hr]), hr]
      have hsound := sound_dispatch (p := { p with fixedHeaderParser := hp }) hs none
      have hcall : ({ p with fixedHeaderParser := hp } : MQTTParser).dispatch none = _ :=
        dispatch_suback htype
      rw [← hparse] at hsound hcall
      rw [Machine.after_cons] at htrue
      refine ⟨congrArg ParseResult.ret hcall, ?_⟩
      refine undecided_of_remaining front _ value.toNat hsound ?_ hrest htrue
      rw [machine, ParseResult.answer, hcall]
      rfl

/-- **A SUBACK packet is accepted only without a failure before.** -/
theorem reads_of_accepts (h : Accepts sort p.reset calls packet) {bytes : Bytes}
    (hcalls : calls.map Call.byte = 0x90 :: bytes) : Reads sort p.reset calls packet := by
  obtain ⟨front, last, rfl, hbefore, htrue, hpacket⟩ := h
  refine ⟨front, last, rfl, ?_, htrue, hpacket⟩
  cases front with
  | nil => simp
  | cons first front =>
    obtain ⟨hfirst, -⟩ := List.cons.inj hcalls
    have hr : p.reset.fixedHeaderParser.parse first.byte none =
        ⟨.indeterminate, none, ⟨.readLength, ⟨.suback, 0, 0⟩, {}⟩⟩ := by
      rw [hfirst]
      rfl
    have hcall : machine sort p.reset first = ((.indeterminate, none), { p.reset with
        fixedHeaderParser := ⟨.readLength, ⟨.suback, 0, 0⟩, {}⟩ }) := by
      rw [machine, ParseResult.answer, parse_start_indeterminate rfl (by rw [hr]), hr]
    rw [Machine.outputs_cons, hcall, List.forall_mem_cons] at hbefore ⊢
    rw [Machine.after_cons, hcall] at htrue
    exact ⟨rfl, undecided_of_header rfl rfl front _ rfl rfl rfl hbefore.2 htrue⟩

end MQTTParser

theorem QoSLevel.byte_le_iff (level : QoSLevel) : level.byte ≤ 0x02 ↔ level ≠ .error := by
  cases level <;> decide

theorem QoSLevel.ofBits_byte (level : QoSLevel) : .ofBits level.byte = level := by
  cases level <;> decide

/-- A body as it is written. -/
theorem subAckOutcome_bytes (suback : SubAckControlPacket) :
    subAckOutcome {} (PacketBody.subAck suback).bytes =
      if .error ∈ suback.qosLevels then .refused else .accepted suback [] := by
  have hbytes : (PacketBody.subAck suback).bytes =
      msb suback.packetIdentifier :: lsb suback.packetIdentifier ::
        suback.qosLevels.map QoSLevel.byte := by
    simp [PacketBody.bytes, PacketBody.fields]
  have hcodes : (∀ code ∈ suback.qosLevels.map QoSLevel.byte, code ≤ 0x02) ↔
      .error ∉ suback.qosLevels := by
    simp only [List.forall_mem_map, QoSLevel.byte_le_iff]
    constructor
    · intro h herror
      exact h _ herror rfl
    · rintro h level hlevel rfl
      exact h hlevel
  rw [hbytes, subAckOutcome, join_msb_lsb]
  by_cases herror : QoSLevel.error ∈ suback.qosLevels
  · rw [if_neg (fun h => hcodes.mp h herror), if_pos herror]
  · rw [if_pos (hcodes.mpr herror), if_neg herror, List.map_map]
    congr 2
    show [] ++ suback.qosLevels.map (fun level => QoSLevel.ofBits level.byte) = _
    simp [QoSLevel.ofBits_byte]

/-- **A SUBACK packet is read as it was written if and only if** it has at most
125 codes and no failure among them. -/
theorem subAck_roundTrip_iff (sort : TopicFilters → TopicFilters) {header : FixedHeader}
    (htype : header.controlPacketType = .suback) (suback : SubAckControlPacket) :
    RoundTrips (MQTTParser.Accepts sort .new) ⟨header, .subAck suback⟩ (· = .subAck suback) ↔
      suback.qosLevels.length ≤ 125 ∧ .error ∉ suback.qosLevels := by
  have hwrites : Serializer.Serializable ⟨header, .subAck suback⟩ := ⟨htype.symm, by simp⟩
  have hsuback : ControlPacketType.ofByte 0x90 = .suback := by decide
  rw [roundTrips_iff hwrites]
  constructor
  · intro h
    obtain ⟨header', body, haccepts, rfl⟩ := h _ (map_callsFor _)
    have hread := MQTTParser.reads_of_accepts (p := .new) haccepts (map_callsFor _)
    obtain ⟨header', body, hheader, haccept⟩ := MQTTParser.header_of_reads (p := .new) hread
    obtain ⟨-, heq, hbytes⟩ := bytes_of_fixedHeader hheader (map_callsFor _)
    have htype' : header'.controlPacketType = .suback := by
      have hfirst : (PacketBody.subAck suback).firstByte = 0x90 := rfl
      rw [heq]
      dsimp only
      rw [hfirst, hsuback]
    have hlength : body.length = header'.length.toNat := by
      rw [haccept, MQTTParser.acceptLength, htype']
    -- the length is right, and so it fits into its byte
    have hfits := (PacketBody.lengthFits_iff _ _ _).mp
      ⟨hbytes, by rw [List.length_map, hlength]⟩
    obtain ⟨q, hq, -⟩ := (MQTTParser.reads_subAck (p := .new) hheader hlength htype').mp hread
    have hsize : (PacketBody.subAck suback).bytes.length < 128 := hfits.1
    rw [PacketBody.length_subAck] at hsize
    refine ⟨by omega, fun herror => ?_⟩
    rw [hfits.2.1] at hq
    have hrefused := (subAckOutcome_bytes suback).symm.trans hq
    rw [if_pos herror] at hrefused
    cases hrefused
  · rintro ⟨hcount, herror⟩ calls hcalls
    have hsize : (PacketBody.subAck suback).bytes.length < 128 := by
      rw [PacketBody.length_subAck]
      omega
    obtain ⟨header', body, hheader, htype', -, hbody, hlength⟩ :=
      fixedHeader_of_frame hcalls (show _ < if True then 128 else 2 ^ 28 by simpa)
        (show (FixedHeader.validate ⟨.ofByte 0x90, 0x90 &&& 0x0F, 0⟩ none).1 = true by decide)
    refine ⟨header', _, ((MQTTParser.reads_subAck (p := .new) hheader hlength
      (htype'.trans hsuback)).mpr ⟨suback, ?_, rfl⟩).accepts, rfl⟩
    rw [hbody]
    exact (subAckOutcome_bytes suback).trans (if_neg herror)

theorem subAck_roundTrip_iff_empty :
    RoundTrips (MQTTParser.Accepts id .new) ⟨⟨.suback, 0, 2⟩, .subAck ⟨1, []⟩⟩
        (· = .subAck ⟨1, []⟩) ↔
      ([] : List QoSLevel).length ≤ 125 ∧ QoSLevel.error ∉ ([] : List QoSLevel) :=
  subAck_roundTrip_iff id rfl ⟨1, []⟩

/-- The answer to a subscription that failed is not read. -/
theorem subAck_roundTrip_fails :
    ¬ ∀ suback : SubAckControlPacket, RoundTrips (MQTTParser.Accepts id .new)
      ⟨{ controlPacketType := .suback }, .subAck suback⟩ (· = .subAck suback) := by
  intro h
  have hwrites : Serializer.Serializable
      ⟨{ controlPacketType := .suback }, .subAck ⟨1, [.error]⟩⟩ := ⟨rfl, by simp⟩
  obtain ⟨header, body, haccepts, rfl⟩ := (roundTrips_iff hwrites).mp (h ⟨1, [.error]⟩)
    (callsFor [0x90, 3, 0, 1, 0x80]) (by decide)
  have hread := MQTTParser.reads_of_accepts (p := .new) haccepts (map_callsFor _)
  have hrefused : outcome (MQTTParser.machine id) MQTTParser.new.reset
      (callsFor [0x90, 3, 0, 1, 0x80]) = .refused := rfl
  obtain ⟨q, hq, -⟩ := Outcome.map_eq_accepted.mp (MQTTParser.reads_iff_outcome.mp hread)
  cases hrefused.symm.trans hq

end Acatl.Mqtt

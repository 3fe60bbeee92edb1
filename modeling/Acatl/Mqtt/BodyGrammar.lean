/-
Acatl.Mqtt.BodyGrammar — packet bodies as a whole: strings with their lengths,
one behind the other.

The `…Outcome` functions say how a body ends for the parser that reads it: it
is accepted as a packet, it is refused, or it ends too early. The `…Decides`
predicates say when it does not end too early, without the packet. Nothing here
mentions a status of a parser; `Acatl.Mqtt.BodyOutcomes` has the runs.
-/
import Acatl.Mqtt.ParserFrames
import Acatl.Mqtt.RemainingLength
import Mathlib.Data.FinEnum

namespace Acatl.Mqtt

open Acatl.Lib

/-! ## §1 Bodies -/

/-- A string with its two length bytes, and the bytes behind it. -/
def takeString : Bytes → Option (Bytes × Bytes)
  | msb :: lsb :: rest =>
    let length := msb.toNat <<< 8 ||| lsb.toNat
    if length ≤ rest.length then some (rest.take length, rest.drop length) else none
  | _ => none

/-- The bytes begin with that many strings. -/
def Strings : Nat → Bytes → Prop
  | 0, _ => True
  | n + 1, bytes => ∃ string rest, takeString bytes = some (string, rest) ∧ Strings n rest

/-- The strings behind the client identifier, by the flags byte. -/
def optionalStrings (flags : UInt8) : Nat :=
  (if flags &&& 0x80 ≠ 0 then 2 else 0) + (if flags &&& 0x04 ≠ 0 then 2 else 0)

/-- The part of a CONNECT body from the client identifier on: the identifier
is complete, and refused or followed by all the strings of the flags. -/
def ClientIdDecides (flags : UInt8) (bytes : Bytes) : Prop :=
  ∃ clientId rest, takeString bytes = some (clientId, rest) ∧
    (clientId = [] ∧ flags &&& 0x02 = 0 ∨ Strings (optionalStrings flags) rest)

/-- The part of a CONNECT body behind the protocol name. -/
def LevelDecides : Bytes → Prop
  | [] => False
  | level :: rest => level ≠ 0x04 ∨
    match rest with
    | [] => False
    | flags :: rest => flags &&& 0x01 ≠ 0 ∨
      match rest with
      | _ :: _ :: rest => ClientIdDecides flags rest
      | _ => False

/-- A CONNECT body. -/
def ConnectDecides (bytes : Bytes) : Prop :=
  ∃ name rest, takeString bytes = some (name, rest) ∧
    (name ≠ ConnectParser.protocolName ∨ LevelDecides rest)

/-- A CONNACK body. -/
def ConnAckDecides : Bytes → Prop
  | [] => False
  | flags :: rest => flags &&& 0xFE ≠ 0 ∨ rest ≠ []

/-- A PUBLISH body: the topic name is complete, and refused or followed by the
identifier of the packet or by at least one byte of payload. -/
def PublishDecides (qos : QoSLevel) (bytes : Bytes) : Prop :=
  ∃ topicName rest, takeString bytes = some (topicName, rest) ∧
    ((TopicName.validate ⟨topicName⟩ none).1 = false ∨
      (if qos.value > QoSLevel.atMostOnce.value then 2 else 1) ≤ rest.length)

/-- The quality of service byte behind a topic filter is refused, or the filter
is not valid. -/
def FilterRefused (filter : Bytes) (qos : UInt8) : Prop :=
  qos &&& 0xFC ≠ 0 ∨ qos &&& 0x03 > 2 ∨
    (TopicFilter.validate ⟨filter, .ofBits (qos &&& 0x03)⟩ none).1 = false

/-- The filters of a SUBSCRIBE body: the bytes end behind a filter, or one of
the filters is refused before. -/
inductive FiltersDecide : Bytes → Prop
  | refused {bytes filter rest : Bytes} {qos : UInt8}
      (htake : takeString bytes = some (filter, qos :: rest)) (hrefused : FilterRefused filter qos) :
      FiltersDecide bytes
  | last {bytes filter : Bytes} {qos : UInt8} (htake : takeString bytes = some (filter, [qos])) :
      FiltersDecide bytes
  | next {bytes filter rest : Bytes} {qos : UInt8}
      (htake : takeString bytes = some (filter, qos :: rest)) (hrest : FiltersDecide rest) :
      FiltersDecide bytes

/-- A SUBSCRIBE body. -/
def SubscribeDecides : Bytes → Prop
  | _ :: _ :: rest => FiltersDecide rest
  | _ => False

/-- The body of a packet with this header. The types without a body and those
that the parser refuses are decided with the header. -/
def BodyDecides (header : FixedHeader) (bytes : Bytes) : Prop :=
  match header.controlPacketType with
  | .connect => ConnectDecides bytes
  | .connack => ConnAckDecides bytes
  | .publish => PublishDecides (.ofBits ((header.flags &&& 0x06) >>> 1)) bytes
  | .subscribe => SubscribeDecides bytes
  | .suback => 2 ≤ bytes.length
  | _ => True

theorem filtersDecide_iff (bytes : Bytes) :
    FiltersDecide bytes ↔ ∃ filter qos rest, takeString bytes = some (filter, qos :: rest) ∧
      (FilterRefused filter qos ∨ rest = [] ∨ FiltersDecide rest) := by
  constructor
  · intro h
    cases h with
    | refused htake hrefused => exact ⟨_, _, _, htake, .inl hrefused⟩
    | last htake => exact ⟨_, _, _, htake, .inr (.inl rfl)⟩
    | next htake hrest => exact ⟨_, _, _, htake, .inr (.inr hrest)⟩
  · intro ⟨filter, qos, rest, htake, h⟩
    rcases h with h | rfl | h
    · exact .refused htake h
    · exact .last htake
    · exact .next htake h

/-! ## §2 Strings -/

/-- A string is what `StringEncoder` writes for it. -/
theorem takeString_eq_some_iff {bytes string rest : Bytes} :
    takeString bytes = some (string, rest) ↔
      string.length < 2 ^ 16 ∧ bytes = stringBytes string ++ rest := by
  constructor
  · intro h
    unfold takeString at h
    split at h
    · rename_i high low tail
      dsimp only at h
      split at h
      · rename_i hlength
        obtain ⟨rfl, rfl⟩ := Prod.mk.inj (Option.some.inj h)
        rw [shift_or] at hlength ⊢
        have hhigh : high.toNat < 256 := high.toNat_lt
        have hlow : low.toNat < 256 := low.toNat_lt
        have htake : (tail.take (high.toNat * 256 + low.toNat)).length = (join high low).toNat := by
          rw [List.length_take, toNat_join]
          omega
        refine ⟨by rw [htake, toNat_join]; omega, ?_⟩
        rw [stringBytes, htake, UInt16.ofNat_toNat, msb_join, lsb_join, List.cons_append,
          List.cons_append, List.take_append_drop]
      · cases h
    · cases h
  · rintro ⟨hlength, rfl⟩
    have hmod : string.length % 65536 = string.length := Nat.mod_eq_of_lt hlength
    rw [stringBytes, List.cons_append, List.cons_append, takeString, length_of_msb_lsb, hmod,
      if_pos (by simp), List.take_left, List.drop_left]

theorem takeString_stringBytes {string : Bytes} (h : string.length < 2 ^ 16) (rest : Bytes) :
    takeString (stringBytes string ++ rest) = some (string, rest) :=
  takeString_eq_some_iff.mpr ⟨h, rfl⟩

theorem takeString_length {bytes string rest : Bytes} (h : takeString bytes = some (string, rest)) :
    bytes.length = 2 + string.length + rest.length := by
  rw [(takeString_eq_some_iff.mp h).2, List.length_append, length_stringBytes]

/-! ## §3 Outcomes -/

/-- How a body ends: too early, with false, or with true, for which there is a
result, and the calls that were not made. -/
inductive Outcome (A : Type) where
  | undecided
  | refused
  | accepted (result : A) (rest : List Call)
  deriving DecidableEq

namespace Outcome

variable {A B : Type}

/-- Another result. -/
def map (f : A → B) : Outcome A → Outcome B
  | undecided => undecided
  | refused => refused
  | accepted result rest => accepted (f result) rest

@[simp] theorem map_undecided (f : A → B) : map f undecided = undecided := rfl
@[simp] theorem map_refused (f : A → B) : map f refused = refused := rfl
@[simp] theorem map_accepted (f : A → B) (result : A) (rest : List Call) :
    map f (accepted result rest) = accepted (f result) rest := rfl

theorem map_map {C : Type} (f : A → B) (g : B → C) (o : Outcome A) :
    (o.map f).map g = o.map fun result => g (f result) := by
  cases o <;> rfl

theorem map_eq_undecided {f : A → B} {o : Outcome A} : o.map f = undecided ↔ o = undecided := by
  cases o <;> simp

theorem map_eq_accepted {f : A → B} {o : Outcome A} {b : B} {rest : List Call} :
    o.map f = accepted b rest ↔ ∃ a, o = accepted a rest ∧ f a = b := by
  cases o with
  | undecided | refused => simp
  | accepted a rest' =>
    simp only [map_accepted, accepted.injEq]
    constructor
    · rintro ⟨h, rfl⟩
      exact ⟨a, ⟨rfl, rfl⟩, h⟩
    · rintro ⟨_, ⟨rfl, rfl⟩, h⟩
      exact ⟨h, rfl⟩

end Outcome

/-- A string, and what follows it. -/
def afterString {A : Type} (bytes : Bytes) (next : Bytes → Bytes → Outcome A) : Outcome A :=
  match takeString bytes with
  | none => .undecided
  | some (string, rest) => next string rest

/-- The packet is complete, and nothing may follow it. -/
def ended {A : Type} (result : A) (rest : Bytes) : Outcome A :=
  if rest = [] then .accepted result [] else .refused

theorem afterString_none {A : Type} {bytes : Bytes} {next : Bytes → Bytes → Outcome A}
    (h : takeString bytes = none) : afterString bytes next = .undecided := by
  rw [afterString, h]

theorem afterString_some {A : Type} {bytes string rest : Bytes} {next : Bytes → Bytes → Outcome A}
    (h : takeString bytes = some (string, rest)) : afterString bytes next = next string rest := by
  rw [afterString, h]

theorem map_ended {A B : Type} (f : A → B) (result : A) (rest : Bytes) :
    (ended result rest).map f = ended (f result) rest := by
  unfold ended
  split <;> rfl

/-- A PUBLISH body. -/
def publishOutcome (qos : QoSLevel) (packet : PublishControlPacket) (bytes : Bytes) :
    Outcome PublishControlPacket :=
  afterString bytes fun topicName rest =>
    if (TopicName.validate ⟨topicName⟩ none).1 = false then .refused
    else if qos.value > QoSLevel.atMostOnce.value then
      match rest with
      | msb :: lsb :: payload =>
        .accepted ⟨⟨topicName⟩, join msb lsb, packet.payload ++ payload⟩ []
      | _ => .undecided
    else if rest = [] then .undecided
    else .accepted ⟨⟨topicName⟩, packet.packetIdentifier, packet.payload ++ rest⟩ []

/-- A SUBACK body. -/
def subAckOutcome (packet : SubAckControlPacket) : Bytes → Outcome SubAckControlPacket
  | msb :: lsb :: codes =>
    if ∀ code ∈ codes, code ≤ 0x02 then
      .accepted ⟨join msb lsb, packet.qosLevels ++ codes.map .ofBits⟩ []
    else .refused
  | _ => .undecided

instance (filter : Bytes) (qos : UInt8) : Decidable (FilterRefused filter qos) :=
  inferInstanceAs (Decidable (_ ∨ _ ∨ _))

/-- The filters of a SUBSCRIBE body, behind those that were read already. -/
def filtersOutcome (filters : TopicFilters) (bytes : Bytes) : Outcome TopicFilters :=
  match _h : takeString bytes with
  | none => .undecided
  | some (_, []) => .undecided
  | some (filter, qos :: rest) =>
    if FilterRefused filter qos then .refused
    else if rest = [] then .accepted (filters ++ [⟨filter, .ofBits (qos &&& 0x03)⟩]) []
    else filtersOutcome (filters ++ [⟨filter, .ofBits (qos &&& 0x03)⟩]) rest
termination_by bytes.length
decreasing_by
  have hlength := takeString_length _h
  rw [List.length_cons] at hlength
  omega

theorem filtersOutcome_none {filters : TopicFilters} {bytes : Bytes} (h : takeString bytes = none) :
    filtersOutcome filters bytes = .undecided := by
  rw [filtersOutcome]
  split <;> simp_all

theorem filtersOutcome_open {filters : TopicFilters} {bytes filter : Bytes}
    (h : takeString bytes = some (filter, [])) : filtersOutcome filters bytes = .undecided := by
  rw [filtersOutcome]
  split <;> simp_all

theorem filtersOutcome_cons {filters : TopicFilters} {bytes filter rest : Bytes} {qos : UInt8}
    (h : takeString bytes = some (filter, qos :: rest)) : filtersOutcome filters bytes =
      if FilterRefused filter qos then .refused
      else if rest = [] then .accepted (filters ++ [⟨filter, .ofBits (qos &&& 0x03)⟩]) []
      else filtersOutcome (filters ++ [⟨filter, .ofBits (qos &&& 0x03)⟩]) rest := by
  rw [filtersOutcome]
  split <;> simp_all

/-- A SUBSCRIBE body. -/
def subscribeOutcome (sort : TopicFilters → TopicFilters) (packet : SubscribeControlPacket) :
    Bytes → Outcome SubscribeControlPacket
  | msb :: lsb :: rest =>
    (filtersOutcome packet.topicFilters rest).map fun filters =>
      ⟨join msb lsb, SubscribeParser.unique (sort filters)⟩
  | _ => .undecided

/-- The password at the end of a CONNECT body. -/
def passwordOutcome (packet : ConnectControlPacket) (bytes : Bytes) : Outcome ConnectControlPacket :=
  afterString bytes fun password rest => ended { packet with password := password } rest

/-- The user name, and the password whatever the password flag says. -/
def authorizationOutcome (packet : ConnectControlPacket) (bytes : Bytes) :
    Outcome ConnectControlPacket :=
  if packet.userNameFlag then
    afterString bytes fun userName rest => passwordOutcome { packet with userName := userName } rest
  else ended packet bytes

theorem authorizationOutcome_user {packet : ConnectControlPacket} (h : packet.userNameFlag = true)
    (bytes : Bytes) : authorizationOutcome packet bytes = afterString bytes fun userName rest =>
      passwordOutcome { packet with userName := userName } rest := by
  rw [authorizationOutcome, if_pos h]

theorem authorizationOutcome_none {packet : ConnectControlPacket} (h : packet.userNameFlag = false)
    (bytes : Bytes) : authorizationOutcome packet bytes = ended packet bytes := by
  rw [authorizationOutcome, if_neg (by simp [h])]

/-- What follows the client identifier. -/
def optionalOutcome (packet : ConnectControlPacket) (bytes : Bytes) :
    Outcome ConnectControlPacket :=
  if packet.willFlag then
    afterString bytes fun willTopic rest =>
      afterString rest fun willMessage rest =>
        authorizationOutcome { packet with willTopic := willTopic, willMessage := willMessage } rest
  else authorizationOutcome packet bytes

theorem optionalOutcome_will {packet : ConnectControlPacket} (h : packet.willFlag = true)
    (bytes : Bytes) : optionalOutcome packet bytes = afterString bytes fun willTopic rest =>
      afterString rest fun willMessage rest => authorizationOutcome
        { packet with willTopic := willTopic, willMessage := willMessage } rest := by
  rw [optionalOutcome, if_pos h]

theorem optionalOutcome_none {packet : ConnectControlPacket} (h : packet.willFlag = false)
    (bytes : Bytes) : optionalOutcome packet bytes = authorizationOutcome packet bytes := by
  rw [optionalOutcome, if_neg (by simp [h])]

/-- The client identifier. An empty one without the clean session flag is
refused if something has to follow, and replaced if not. -/
def clientIdOutcome (uuid : Bytes) (packet : ConnectControlPacket) (bytes : Bytes) :
    Outcome ConnectControlPacket :=
  afterString bytes fun clientId rest =>
    if clientId = [] ∧ packet.cleanSession = false ∧
        (packet.willFlag = true ∨ packet.userNameFlag = true) then .refused
    else optionalOutcome { packet with clientId := if clientId = [] then uuid else clientId } rest

/-- A CONNECT body from the flags on. -/
def flagsOutcome (uuid : Bytes) (packet : ConnectControlPacket) : Bytes →
    Outcome ConnectControlPacket
  | [] => .undecided
  | flags :: rest =>
    if flags &&& 0x01 ≠ 0 then .refused
    else
      match rest with
      | msb :: lsb :: rest =>
        clientIdOutcome uuid { ConnectParser.setFlags packet flags with keepAlive := join msb lsb }
          rest
      | _ => .undecided

/-- A CONNECT body; `uuid` is what takes the place of an empty client
identifier. -/
def connectOutcome (uuid : Bytes) (packet : ConnectControlPacket) (bytes : Bytes) :
    Outcome ConnectControlPacket :=
  afterString bytes fun name rest =>
    if name ≠ ConnectParser.protocolName then .refused
    else
      match rest with
      | [] => .undecided
      | level :: rest =>
        if level ≠ 0x04 then .refused
        else flagsOutcome uuid { packet with protocolLevel := level } rest

/-! ## §4 Bodies that are decided -/

/-- What holds of a body that begins with a string, if it does not hold of one
that ends too early. -/
theorem afterString_holds {A : Type} {P : Outcome A → Prop} (hundecided : ¬ P .undecided)
    {bytes : Bytes} {next : Bytes → Bytes → Outcome A} :
    P (afterString bytes next) ↔
      ∃ string rest, takeString bytes = some (string, rest) ∧ P (next string rest) := by
  unfold afterString
  cases htake : takeString bytes with
  | none => simp [hundecided]
  | some taken =>
    constructor
    · intro h
      exact ⟨taken.1, taken.2, rfl, h⟩
    · rintro ⟨string, rest, heq, h⟩
      obtain rfl := Option.some.inj heq
      exact h

theorem afterString_decided {A : Type} {bytes : Bytes} {next : Bytes → Bytes → Outcome A} :
    afterString bytes next ≠ .undecided ↔
      ∃ string rest, takeString bytes = some (string, rest) ∧ next string rest ≠ .undecided :=
  afterString_holds (P := fun o => o ≠ .undecided) (not_not.mpr rfl)

theorem ended_decided {A : Type} (result : A) (rest : Bytes) : ended result rest ≠ .undecided := by
  unfold ended
  split <;> simp

theorem publishOutcome_decided (qos : QoSLevel) (packet : PublishControlPacket) (bytes : Bytes) :
    publishOutcome qos packet bytes ≠ .undecided ↔ PublishDecides qos bytes := by
  unfold publishOutcome PublishDecides
  rw [afterString_decided]
  refine exists_congr fun topicName => exists_congr fun rest => and_congr_right fun _ => ?_
  cases hvalid : (TopicName.validate ⟨topicName⟩ none).1 with
  | false => simp
  | true =>
    by_cases hqos : qos.value > QoSLevel.atMostOnce.value
    · simp only [Bool.true_eq_false, if_false, if_pos hqos, false_or]
      match rest with
      | [] => simp
      | [_] => simp
      | _ :: _ :: _ => simp
    · simp only [Bool.true_eq_false, if_false, if_neg hqos, false_or]
      cases rest <;> simp

theorem subAckOutcome_decided (packet : SubAckControlPacket) (bytes : Bytes) :
    subAckOutcome packet bytes ≠ .undecided ↔ 2 ≤ bytes.length := by
  match bytes with
  | [] => simp [subAckOutcome]
  | [_] => simp [subAckOutcome]
  | msb :: lsb :: codes =>
    rw [subAckOutcome]
    split <;> simp

/-- The induction is on a bound for the length: the bytes behind one filter are
as many filters again. -/
theorem filtersOutcome_decided (n : Nat) : ∀ (bytes : Bytes), bytes.length < n →
    ∀ filters, filtersOutcome filters bytes ≠ .undecided ↔ FiltersDecide bytes := by
  induction n with
  | zero => intro bytes hn; omega
  | succ n ih =>
    intro bytes hn filters
    rw [filtersDecide_iff]
    match htake : takeString bytes with
    | none => simp [filtersOutcome_none htake]
    | some (filter, []) => simp [filtersOutcome_open htake]
    | some (filter, qos :: rest) =>
      have hlength := takeString_length htake
      rw [List.length_cons] at hlength
      have hrest := ih rest (by omega) (filters ++ [⟨filter, .ofBits (qos &&& 0x03)⟩])
      rw [filtersOutcome_cons htake]
      have hsplit : (∃ filter' qos' rest', some (filter, qos :: rest) =
          some (filter', qos' :: rest') ∧
            (FilterRefused filter' qos' ∨ rest' = [] ∨ FiltersDecide rest')) ↔
          FilterRefused filter qos ∨ rest = [] ∨ FiltersDecide rest := by simp
      rw [hsplit]
      by_cases hrefused : FilterRefused filter qos
      · simp [hrefused]
      · by_cases hnil : rest = []
        · simp [hnil, hrefused]
        · rw [if_neg hrefused, if_neg hnil, hrest]
          simp [hrefused, hnil]

theorem subscribeOutcome_decided (sort : TopicFilters → TopicFilters)
    (packet : SubscribeControlPacket) (bytes : Bytes) :
    subscribeOutcome sort packet bytes ≠ .undecided ↔ SubscribeDecides bytes := by
  match bytes with
  | [] => simp [subscribeOutcome, SubscribeDecides]
  | [_] => simp [subscribeOutcome, SubscribeDecides]
  | msb :: lsb :: rest =>
    rw [subscribeOutcome, ne_eq, Outcome.map_eq_undecided, SubscribeDecides]
    exact filtersOutcome_decided _ rest (Nat.lt_succ_self _) _

/-- The bytes begin with that many strings, and what follows them is as told. -/
def StringsThen (End : Bytes → Prop) : Nat → Bytes → Prop
  | 0, bytes => End bytes
  | n + 1, bytes => ∃ string rest, takeString bytes = some (string, rest) ∧ StringsThen End n rest

theorem strings_iff (n : Nat) (bytes : Bytes) :
    Strings n bytes ↔ StringsThen (fun _ => True) n bytes := by
  induction n generalizing bytes with
  | zero => exact Iff.rfl
  | succ n ih =>
    refine exists_congr fun string => exists_congr fun rest => and_congr_right fun _ => ?_
    exact ih rest

section

/-! What holds of the strings behind the client identifier, given what holds
when they are complete. -/

variable {P : Outcome ConnectControlPacket → Prop} {End : Bytes → Prop}
  (hundecided : ¬ P .undecided) (hended : ∀ packet rest, P (ended packet rest) ↔ End rest)

include hundecided hended

theorem passwordOutcome_holds (packet : ConnectControlPacket) (bytes : Bytes) :
    P (passwordOutcome packet bytes) ↔ StringsThen End 1 bytes := by
  unfold passwordOutcome
  rw [afterString_holds hundecided]
  refine exists_congr fun password => exists_congr fun rest => and_congr_right fun _ => ?_
  exact hended _ rest

theorem authorizationOutcome_holds (packet : ConnectControlPacket) (bytes : Bytes) :
    P (authorizationOutcome packet bytes) ↔
      StringsThen End (if packet.userNameFlag then 2 else 0) bytes := by
  unfold authorizationOutcome
  cases huser : packet.userNameFlag with
  | false => exact hended packet bytes
  | true =>
    rw [if_pos rfl, afterString_holds hundecided]
    refine exists_congr fun userName => exists_congr fun rest => and_congr_right fun _ => ?_
    exact passwordOutcome_holds hundecided hended _ rest

theorem optionalOutcome_holds (packet : ConnectControlPacket) (bytes : Bytes) :
    P (optionalOutcome packet bytes) ↔ StringsThen End
      ((if packet.userNameFlag then 2 else 0) + if packet.willFlag then 2 else 0) bytes := by
  unfold optionalOutcome
  cases hwill : packet.willFlag with
  | false => exact authorizationOutcome_holds hundecided hended packet bytes
  | true =>
    rw [if_pos rfl, afterString_holds hundecided]
    refine exists_congr fun willTopic => exists_congr fun rest => and_congr_right fun _ => ?_
    rw [afterString_holds hundecided]
    refine exists_congr fun willMessage => exists_congr fun rest => and_congr_right fun _ => ?_
    exact authorizationOutcome_holds hundecided hended _ rest

end

theorem optionalOutcome_decided (packet : ConnectControlPacket) (bytes : Bytes) :
    optionalOutcome packet bytes ≠ .undecided ↔
      Strings ((if packet.userNameFlag then 2 else 0) + if packet.willFlag then 2 else 0) bytes := by
  rw [strings_iff]
  exact optionalOutcome_holds (P := fun o => o ≠ .undecided) (not_not.mpr rfl)
    (fun packet rest => iff_of_true (ended_decided packet rest) trivial) packet bytes

theorem clientIdOutcome_decided (uuid : Bytes) (packet : ConnectControlPacket) (bytes : Bytes) :
    clientIdOutcome uuid packet bytes ≠ .undecided ↔
      ∃ clientId rest, takeString bytes = some (clientId, rest) ∧
        (clientId = [] ∧ packet.cleanSession = false ∨
          Strings ((if packet.userNameFlag then 2 else 0) + if packet.willFlag then 2 else 0)
            rest) := by
  unfold clientIdOutcome
  rw [afterString_decided]
  refine exists_congr fun clientId => exists_congr fun rest => and_congr_right fun _ => ?_
  by_cases hrefused : clientId = [] ∧ packet.cleanSession = false
  · simp only [hrefused, true_and, and_self, true_or, iff_true]
    split
    · simp
    · rename_i hnone
      have hnone : packet.willFlag = false ∧ packet.userNameFlag = false := by simpa using hnone
      rw [optionalOutcome_decided]
      simp [hnone.1, hnone.2, Strings]
  · rw [if_neg (fun h => hrefused ⟨h.1, h.2.1⟩), or_iff_right hrefused]
    exact optionalOutcome_decided _ rest

theorem flagsOutcome_decided (uuid : Bytes) (packet : ConnectControlPacket) (flags : UInt8)
    (bytes : Bytes) : flagsOutcome uuid packet (flags :: bytes) ≠ .undecided ↔
      flags &&& 0x01 ≠ 0 ∨
        match bytes with
        | _ :: _ :: rest => ClientIdDecides flags rest
        | _ => False := by
  by_cases hreserved : flags &&& 0x01 ≠ 0
  · refine iff_of_true ?_ (.inl hreserved)
    simp only [flagsOutcome, if_pos hreserved]
    simp
  · rw [or_iff_right hreserved]
    match bytes with
    | [] => simp only [flagsOutcome, if_neg hreserved, ne_eq, not_true_eq_false]
    | [_] => simp only [flagsOutcome, if_neg hreserved, ne_eq, not_true_eq_false]
    | msb :: lsb :: rest =>
      simp only [flagsOutcome, if_neg hreserved]
      rw [clientIdOutcome_decided]
      simp [ClientIdDecides, optionalStrings, ConnectParser.setFlags]

theorem connectOutcome_decided (uuid : Bytes) (packet : ConnectControlPacket) (bytes : Bytes) :
    connectOutcome uuid packet bytes ≠ .undecided ↔ ConnectDecides bytes := by
  unfold connectOutcome ConnectDecides
  rw [afterString_decided]
  refine exists_congr fun name => exists_congr fun rest => and_congr_right fun _ => ?_
  by_cases hname : name = ConnectParser.protocolName
  · rw [if_neg (not_not.mpr hname), or_iff_right (not_not.mpr hname)]
    match rest with
    | [] => simp [LevelDecides]
    | level :: rest =>
      by_cases hlevel : level = 0x04
      · simp only [hlevel, ne_eq, not_true_eq_false, if_false, LevelDecides, false_or]
        match rest with
        | [] => simp [flagsOutcome]
        | flags :: rest => exact flagsOutcome_decided uuid _ flags rest
      · simp [hlevel, LevelDecides]
  · simp [hname]

end Acatl.Mqtt

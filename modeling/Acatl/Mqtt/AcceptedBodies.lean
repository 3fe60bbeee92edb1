/-
Acatl.Mqtt.AcceptedBodies — which bodies `ConnectParser` and `PublishParser`
accept, against the grammar of the packets.

  §1  `AcceptsExactly`: true with the last byte exactly for what a grammar
      allows, and false by then for everything else.
  §2  `ConnectParser` does so for the bodies that are decided, but for those
      that it misreads (`Misread`).
  §3  `PublishParser` does so exactly for the bodies that are decided.

A body that is not decided leaves the parser waiting: that is what both miss.
-/
import Acatl.Mqtt.BodyOutcomes

namespace Acatl.Mqtt

open Acatl.Lib

/-! ## §1 Runs that accept exactly a grammar -/

/-- The last call returns true. -/
def TrueAtLast (answers : List (Tribool × ErrorCode)) : Prop :=
  ∃ a, answers.getLast? = some a ∧ a.1 = .det true

/-- Some call returns false. -/
def FalseByLast (answers : List (Tribool × ErrorCode)) : Prop :=
  ∃ a ∈ answers, a.1 = .det false

instance (answers : List (Tribool × ErrorCode)) : Decidable (TrueAtLast answers) :=
  decidable_of_iff (answers.getLast?.any fun a => a.1 = .det true)
    (by simp only [Option.any_eq_true, decide_eq_true_eq, TrueAtLast])

instance (answers : List (Tribool × ErrorCode)) : Decidable (FalseByLast answers) :=
  inferInstanceAs (Decidable (∃ a ∈ answers, _))

/-- True with the last call exactly for what the grammar allows, and false by
then for everything else. -/
def AcceptsExactly (answers : List (Tribool × ErrorCode)) (grammar : Prop) : Prop :=
  (TrueAtLast answers ↔ grammar) ∧ (¬ grammar → FalseByLast answers)

/-- A machine that goes on to fail once it has failed. -/
structure FailsForGood {P : Type} (m : Machine P Call (Tribool × ErrorCode))
    (Sound Failed : P → Prop) : Prop where
  sound : ∀ p call, Sound p → Sound (m p call).2
  fails : ∀ p call, Sound p → (m p call).1.1 = .det false → Failed (m p call).2
  stays : ∀ p call, Failed p → (m p call).1.1 = .det false ∧ Failed (m p call).2

section

variable {P : Type} {m : Machine P Call (Tribool × ErrorCode)} {p q : P} {calls : List Call}

theorem answers_of_undecided (h : outcome m p calls = .undecided) :
    ∀ a ∈ m.outputs p calls, a.1 = .indeterminate := by
  intro a ha
  by_contra hdet
  exact decided_iff_outcome.mp ⟨a, ha, hdet⟩ h

theorem answers_of_accepted (h : outcome m p calls = .accepted q []) :
    TrueAtLast (m.outputs p calls) ∧ ¬ FalseByLast (m.outputs p calls) ∧ m.after p calls = q := by
  obtain ⟨front, last, rfl, hfront, hlast, hq⟩ := outcome_eq_accepted_iff.mp h
  rw [m.outputs_append, m.after_append]
  refine ⟨⟨_, List.getLast?_concat, hlast⟩, ?_, hq⟩
  rintro ⟨a, ha, hfalse⟩
  rcases List.mem_append.mp ha with ha | ha
  · simp [hfront a ha] at hfalse
  · obtain rfl := List.mem_singleton.mp ha
    simp [hlast] at hfalse

variable {Sound Failed : P → Prop}

/-- A refused run returns false, and does not return true with a later call. -/
theorem answers_of_refused (hm : FailsForGood m Sound Failed) (hp : Sound p)
    (h : outcome m p calls = .refused) :
    ¬ TrueAtLast (m.outputs p calls) ∧ FalseByLast (m.outputs p calls) := by
  induction calls generalizing p with
  | nil => simp [outcome] at h
  | cons call calls ih =>
    rw [Machine.outputs_cons]
    cases hret : (m p call).1.1 with
    | indeterminate =>
      rw [outcome_indeterminate hret] at h
      obtain ⟨htrue, a, ha, hfalse⟩ := ih (hm.sound p call hp) h
      refine ⟨?_, a, List.mem_cons_of_mem _ ha, hfalse⟩
      rintro ⟨b, hb, hlast⟩
      rw [List.getLast?_cons] at hb
      cases hrest : (m.outputs (m p call).2 calls).getLast? with
      | none => simp [List.getLast?_eq_none_iff.mp hrest] at ha
      | some c =>
        rw [hrest, Option.getD_some] at hb
        exact htrue ⟨b, hrest.trans hb, hlast⟩
    | det b =>
      cases b with
      | true => simp [outcome_true hret] at h
      | false =>
        have hall := Machine.forall_outputs Failed
          (P := fun a : Tribool × ErrorCode => a.1 = .det false) hm.stays
          (hm.fails p call hp hret) calls
        refine ⟨?_, _, List.mem_cons_self, hret⟩
        rintro ⟨b, hb, hlast⟩
        rcases List.mem_cons.mp (List.mem_of_getLast? hb) with rfl | hb
        · simp [hret] at hlast
        · simp [hall b hb] at hlast

/-- **A parser accepts exactly a grammar** if no run ends too early, and the
runs that are accepted are those of the grammar. -/
theorem acceptsExactly_iff_outcome (hm : FailsForGood m Sound Failed) (hp : Sound p)
    (hend : ∀ q rest, outcome m p calls = .accepted q rest → rest = []) (grammar : Prop) :
    AcceptsExactly (m.outputs p calls) grammar ↔ outcome m p calls ≠ .undecided ∧
      ((∃ q, outcome m p calls = .accepted q []) ↔ grammar) := by
  unfold AcceptsExactly
  cases h : outcome m p calls with
  | undecided =>
    have hall := answers_of_undecided h
    have htrue : ¬ TrueAtLast (m.outputs p calls) := by
      rintro ⟨a, ha, htrue⟩
      simp [hall a (List.mem_of_getLast? ha)] at htrue
    have hfalse : ¬ FalseByLast (m.outputs p calls) := by
      rintro ⟨a, ha, hfalse⟩
      simp [hall a ha] at hfalse
    simp only [htrue, hfalse, ne_eq, not_true_eq_false, false_and, iff_false]
    tauto
  | refused =>
    obtain ⟨htrue, hfalse⟩ := answers_of_refused hm hp h
    simp [htrue, hfalse]
  | accepted q rest =>
    obtain rfl := hend q rest h
    obtain ⟨htrue, hfalse, -⟩ := answers_of_accepted h
    simp only [htrue, hfalse, ne_eq, reduceCtorEq, not_false_eq_true, true_and, imp_false, not_not,
      Outcome.accepted.injEq, and_true, exists_eq', true_iff, and_self]

end

/-! ## §2 CONNECT -/

/-- The bytes are that many strings, and nothing else. -/
def ExactStrings (n : Nat) (bytes : Bytes) : Prop := StringsThen (· = []) n bytes

/-- The strings behind the client identifier of a CONNECT packet, by the flags
byte: two of the will, the user name, the password. -/
def fieldStrings (flags : UInt8) : Nat :=
  (if flags &&& 0x04 ≠ 0 then 2 else 0) + (if flags &&& 0x80 ≠ 0 then 1 else 0) +
    (if flags &&& 0x40 ≠ 0 then 1 else 0)

/-- A CONNECT body up to its client identifier, which may be empty. -/
def ConnectHead (bytes : Bytes) (flags : UInt8) (clientId rest : Bytes) : Prop :=
  ∃ msb lsb tail, takeString bytes =
      some (ConnectParser.protocolName, 0x04 :: flags :: msb :: lsb :: tail) ∧
    flags &&& 0x01 = 0 ∧ takeString tail = some (clientId, rest)

/-- The grammar of a CONNECT body. -/
def ConnectGrammar (bytes : Bytes) : Prop :=
  ∃ flags clientId rest, ConnectHead bytes flags clientId rest ∧
    (clientId = [] → flags &&& 0x02 ≠ 0) ∧ ExactStrings (fieldStrings flags) rest

/-- The bodies that are accepted. -/
def ConnectRead (bytes : Bytes) : Prop :=
  ∃ flags clientId rest, ConnectHead bytes flags clientId rest ∧
    (clientId = [] → flags &&& 0x02 ≠ 0 ∨ optionalStrings flags = 0) ∧
    ExactStrings (optionalStrings flags) rest

/-- The bodies that are read otherwise than the grammar says: an empty client
identifier without the clean session flag and with nothing behind it; and user
name and password flags that differ, with the strings of either reading. -/
def Misread (bytes : Bytes) : Prop :=
  ∃ flags clientId rest, ConnectHead bytes flags clientId rest ∧
    ((clientId = [] ∧ flags &&& 0x02 = 0 ∧ optionalStrings flags = 0 ∧ rest = []) ∨
      ((clientId = [] → flags &&& 0x02 ≠ 0) ∧ ¬ (flags &&& 0x80 ≠ 0 ↔ flags &&& 0x40 ≠ 0) ∧
        (ExactStrings (optionalStrings flags) rest ∨ ExactStrings (fieldStrings flags) rest)))

theorem ConnectHead.unique {bytes clientId clientId' rest rest' : Bytes} {flags flags' : UInt8}
    (h : ConnectHead bytes flags clientId rest) (h' : ConnectHead bytes flags' clientId' rest') :
    flags = flags' ∧ clientId = clientId' ∧ rest = rest' := by
  obtain ⟨msb, lsb, tail, hname, -, hid⟩ := h
  obtain ⟨msb', lsb', tail', hname', -, hid'⟩ := h'
  have htail := (Prod.mk.inj (Option.some.inj (hname.symm.trans hname'))).2
  simp only [List.cons.injEq, true_and] at htail
  obtain ⟨hflags, -, -, rfl⟩ := htail
  obtain ⟨hclient, hrest⟩ := Prod.mk.inj (Option.some.inj (hid.symm.trans hid'))
  exact ⟨hflags, hclient, hrest⟩

theorem ConnectHead.exists_iff {bytes clientId rest : Bytes} {flags : UInt8}
    (h : ConnectHead bytes flags clientId rest) {Q : UInt8 → Bytes → Bytes → Prop} :
    (∃ flags clientId rest, ConnectHead bytes flags clientId rest ∧ Q flags clientId rest) ↔
      Q flags clientId rest := by
  constructor
  · rintro ⟨flags', clientId', rest', h', hQ⟩
    obtain ⟨rfl, rfl, rfl⟩ := h.unique h'
    exact hQ
  · intro hQ
    exact ⟨flags, clientId, rest, h, hQ⟩

/-- No bytes are two different numbers of strings. -/
theorem ExactStrings.unique {n n' : Nat} {bytes : Bytes} (h : ExactStrings n bytes)
    (h' : ExactStrings n' bytes) : n = n' := by
  induction n generalizing n' bytes with
  | zero =>
    cases n' with
    | zero => rfl
    | succ n' =>
      have hnil : bytes = [] := h
      obtain ⟨string, rest, htake, -⟩ := h'
      simp [hnil, takeString] at htake
  | succ n ih =>
    obtain ⟨string, rest, htake, hrest⟩ := h
    cases n' with
    | zero =>
      have hnil : bytes = [] := h'
      simp [hnil, takeString] at htake
    | succ n' =>
      obtain ⟨string', rest', htake', hrest'⟩ := h'
      obtain ⟨rfl, rfl⟩ := Prod.mk.inj (Option.some.inj (htake.symm.trans htake'))
      rw [ih hrest hrest']

/-- The two readings differ in how they take the password. -/
theorem optionalStrings_eq_iff (flags : UInt8) : optionalStrings flags = fieldStrings flags ↔
    (flags &&& 0x80 ≠ 0 ↔ flags &&& 0x40 ≠ 0) := by
  unfold optionalStrings fieldStrings
  by_cases huser : flags &&& 0x80 = 0 <;> by_cases hpassword : flags &&& 0x40 = 0 <;>
    by_cases hwill : flags &&& 0x04 = 0 <;> simp [huser, hpassword, hwill]

/-- The bodies that are misread are those on which the two readings differ. -/
theorem misread_iff (bytes : Bytes) :
    Misread bytes ↔ ¬ (ConnectRead bytes ↔ ConnectGrammar bytes) := by
  unfold Misread ConnectRead ConnectGrammar
  by_cases hhead : ∃ flags clientId rest, ConnectHead bytes flags clientId rest
  · obtain ⟨flags, clientId, rest, hhead⟩ := hhead
    rw [hhead.exists_iff, hhead.exists_iff, hhead.exists_iff, ← optionalStrings_eq_iff]
    by_cases hid : clientId = [] → flags &&& 0x02 ≠ 0
    · have hsome : ¬ (clientId = [] ∧ flags &&& 0x02 = 0 ∧ optionalStrings flags = 0 ∧
          rest = []) := fun h => hid h.1 h.2.1
      have hread : clientId = [] → flags &&& 0x02 ≠ 0 ∨ optionalStrings flags = 0 :=
        fun h => .inl (hid h)
      rw [or_iff_right hsome, and_iff_right hid, and_iff_right hid, and_iff_right hread]
      by_cases heq : optionalStrings flags = fieldStrings flags
      · rw [heq]
        simp only [not_true_eq_false, false_and]
      · rw [and_iff_right heq]
        by_cases hread : ExactStrings (optionalStrings flags) rest
        · have hnot : ¬ ExactStrings (fieldStrings flags) rest := fun h => heq (hread.unique h)
          simp only [hread, hnot, true_or, iff_false, not_true_eq_false, not_false_eq_true]
        · simp only [hread, false_or, false_iff, not_not]
    · obtain ⟨hempty, hclean⟩ : clientId = [] ∧ flags &&& 0x02 = 0 := by simpa using hid
      by_cases hzero : optionalStrings flags = 0
      · simp [hempty, hclean, hzero, ExactStrings, StringsThen]
      · simp [hempty, hclean, hzero]
  · have hnone : ∀ Q : UInt8 → Bytes → Bytes → Prop,
        ¬ ∃ flags clientId rest, ConnectHead bytes flags clientId rest ∧ Q flags clientId rest := by
      rintro Q ⟨flags, clientId, rest, h, -⟩
      exact hhead ⟨flags, clientId, rest, h⟩
    exact iff_of_false (hnone _) (not_not.mpr (iff_of_false (hnone _) (hnone _)))

section

/-! What holds only of CONNECT bodies that are accepted. -/

variable {P : Outcome ConnectControlPacket → Prop} (hundecided : ¬ P .undecided)
  (hrefused : ¬ P .refused)

include hundecided hrefused

theorem clientIdOutcome_holds (uuid : Bytes) (packet : ConnectControlPacket) (bytes : Bytes) :
    P (clientIdOutcome uuid packet bytes) ↔
      ∃ clientId rest, takeString bytes = some (clientId, rest) ∧
        ¬ (clientId = [] ∧ packet.cleanSession = false ∧
          (packet.willFlag = true ∨ packet.userNameFlag = true)) ∧
        P (optionalOutcome { packet with clientId := if clientId = [] then uuid else clientId }
          rest) := by
  unfold clientIdOutcome
  rw [afterString_holds hundecided]
  refine exists_congr fun clientId => exists_congr fun rest => and_congr_right fun _ => ?_
  split
  · rename_i hid
    exact iff_of_false hrefused (fun h => h.1 hid)
  · rename_i hid
    exact (and_iff_right hid).symm

theorem flagsOutcome_holds (uuid : Bytes) (packet : ConnectControlPacket) (bytes : Bytes) :
    P (flagsOutcome uuid packet bytes) ↔
      ∃ flags msb lsb rest, bytes = flags :: msb :: lsb :: rest ∧ flags &&& 0x01 = 0 ∧
        P (clientIdOutcome uuid
          { ConnectParser.setFlags packet flags with keepAlive := join msb lsb } rest) := by
  cases bytes with
  | nil => simp [flagsOutcome, hundecided]
  | cons flags bytes =>
    by_cases hreserved : flags &&& 0x01 = 0
    · rcases bytes with _ | ⟨msb, _ | ⟨lsb, rest⟩⟩
      · simp [flagsOutcome, hreserved, hundecided]
      · simp [flagsOutcome, hreserved, hundecided]
      · simp only [flagsOutcome, hreserved, ne_eq, not_true_eq_false, if_false]
        constructor
        · intro h
          exact ⟨flags, msb, lsb, rest, rfl, hreserved, h⟩
        · rintro ⟨flags', msb', lsb', rest', heq, -, h⟩
          simp only [List.cons.injEq] at heq
          obtain ⟨rfl, rfl, rfl, rfl⟩ := heq
          exact h
    · simp [flagsOutcome, hreserved, hrefused]

theorem connectOutcome_holds (uuid : Bytes) (packet : ConnectControlPacket) (bytes : Bytes) :
    P (connectOutcome uuid packet bytes) ↔
      ∃ rest, takeString bytes = some (ConnectParser.protocolName, 0x04 :: rest) ∧
        P (flagsOutcome uuid { packet with protocolLevel := 0x04 } rest) := by
  unfold connectOutcome
  rw [afterString_holds hundecided]
  constructor
  · rintro ⟨name, rest, htake, h⟩
    by_cases hname : name = ConnectParser.protocolName
    · rw [if_neg (not_not.mpr hname)] at h
      cases rest with
      | nil => exact absurd h hundecided
      | cons level rest =>
        by_cases hlevel : level = 0x04
        · subst hname hlevel
          exact ⟨rest, htake, h⟩
        · exact absurd h (by simp [hlevel, hrefused])
    · rw [if_pos hname] at h
      exact absurd h hrefused
  · rintro ⟨rest, htake, h⟩
    exact ⟨_, _, htake, by simpa using h⟩

end

/-- **The CONNECT bodies that are accepted**: the strings behind the client
identifier are as many as the will and user name flags say. -/
theorem connectOutcome_accepts {P : Outcome ConnectControlPacket → Prop}
    (hundecided : ¬ P .undecided) (hrefused : ¬ P .refused)
    (hended : ∀ packet rest, P (ended packet rest) ↔ rest = []) (uuid : Bytes)
    (packet : ConnectControlPacket) (bytes : Bytes) :
    P (connectOutcome uuid packet bytes) ↔ ConnectRead bytes := by
  have hallowed : ∀ (flags : UInt8) (clientId : Bytes),
      ¬ (clientId = [] ∧ (flags &&& 0x02 ≠ 0 : Bool) = false ∧
        ((flags &&& 0x04 ≠ 0 : Bool) = true ∨ (flags &&& 0x80 ≠ 0 : Bool) = true)) ↔
      (clientId = [] → flags &&& 0x02 ≠ 0 ∨ optionalStrings flags = 0) := by
    intro flags clientId
    by_cases hclean : flags &&& 0x02 = 0 <;> by_cases hwill : flags &&& 0x04 = 0 <;>
      by_cases huser : flags &&& 0x80 = 0 <;> simp [optionalStrings, hclean, hwill, huser]
  have hstrings : ∀ flags : UInt8, ((if (flags &&& 0x80 ≠ 0 : Bool) then 2 else 0) +
      if (flags &&& 0x04 ≠ 0 : Bool) then 2 else 0) = optionalStrings flags := by
    intro flags
    simp [optionalStrings]
  rw [connectOutcome_holds hundecided hrefused]
  constructor
  · rintro ⟨rest, htake, h⟩
    obtain ⟨flags, msb, lsb, tail, rfl, hreserved, h⟩ :=
      (flagsOutcome_holds hundecided hrefused uuid _ rest).mp h
    obtain ⟨clientId, rest, hid, hnot, h⟩ :=
      (clientIdOutcome_holds hundecided hrefused uuid _ tail).mp h
    have h := (optionalOutcome_holds hundecided hended _ rest).mp h
    refine ⟨flags, clientId, rest, ⟨msb, lsb, tail, htake, hreserved, hid⟩,
      (hallowed flags clientId).mp hnot, ?_⟩
    rw [ExactStrings, ← hstrings]
    exact h
  · rintro ⟨flags, clientId, rest, ⟨msb, lsb, tail, htake, hreserved, hid⟩, hnot, h⟩
    rw [ExactStrings, ← hstrings] at h
    refine ⟨_, htake, (flagsOutcome_holds hundecided hrefused uuid _ _).mpr
      ⟨flags, msb, lsb, tail, rfl, hreserved, ?_⟩⟩
    refine (clientIdOutcome_holds hundecided hrefused uuid _ tail).mpr
      ⟨clientId, rest, hid, (hallowed flags clientId).mpr hnot, ?_⟩
    exact (optionalOutcome_holds hundecided hended _ rest).mpr h

namespace ConnectParser

/-- `ConnectParser` fails for good, whatever state it is in. -/
theorem failsForGood :
    FailsForGood ConnectParser.machine (fun _ => True) (fun p => p.ret = .det false) where
  sound _ _ _ := trivial
  fails _ call _ hret := (BodyParser.parse_ret call.byte none).symm.trans hret
  stays _ call hret := parse_failed hret call.uuid call.byte none

/-- **`ConnectParser` accepts exactly the CONNECT bodies** if and only if the
body does not end too early and is not one of those that are misread. -/
theorem connect_grammar_iff (calls : List Call) :
    AcceptsExactly (ConnectParser.machine.outputs (.new calls.length) calls)
        (ConnectGrammar (calls.map Call.byte)) ↔
      ConnectDecides (calls.map Call.byte) ∧ ¬ Misread (calls.map Call.byte) := by
  obtain ⟨uuid, hout⟩ := outcome_eq {} rfl rfl calls
  have hended : ∀ (packet : ConnectControlPacket) (rest : Bytes), ∀ result left,
      ended packet rest = .accepted result left ↔ rest = [] ∧ packet = result ∧ left = [] := by
    intro packet rest result left
    unfold ended
    split <;> simp_all
  have hread : (∃ q, outcome machine (new calls.length) calls = .accepted q []) ↔
      ConnectRead (calls.map Call.byte) := by
    rw [← connectOutcome_accepts (P := fun o => ∃ packet, o = .accepted packet []) (by simp)
      (by simp) (by simp [hended]) uuid {}, ← hout]
    simp [Outcome.map_eq_accepted, new]
  have hend : ∀ q rest, outcome machine (new calls.length) calls = .accepted q rest →
      rest = [] := by
    intro q rest hq
    have hsome : ConnectRead (calls.map Call.byte) := by
      rw [← connectOutcome_accepts (P := fun o => ∃ packet left, o = .accepted packet left)
        (by simp) (by simp) (by simp [hended]) uuid {}, ← hout]
      exact ⟨_, rest, Outcome.map_eq_accepted.mpr ⟨q, hq, rfl⟩⟩
    obtain ⟨q', hq'⟩ := hread.mpr hsome
    exact (Outcome.accepted.inj (hq.symm.trans hq')).2
  have hdecided : outcome machine (new calls.length) calls ≠ .undecided ↔
      ConnectDecides (calls.map Call.byte) := by
    rw [← connectOutcome_decided uuid {}, ← hout]
    exact not_congr Outcome.map_eq_undecided.symm
  rw [acceptsExactly_iff_outcome failsForGood trivial hend, hread, hdecided, misread_iff, not_not]

/-- A CONNECT body with the user name flag and without the password flag. -/
def userNameBody : Bytes :=
  [0, 4, 0x4D, 0x51, 0x54, 0x54, 4, 0x80, 0, 0, 0, 1, 0x61, 0, 1, 0x75]

/-- The user name of that body is not the last string for the parser. -/
theorem connect_grammar_fails :
    ¬ ∀ calls : List Call, AcceptsExactly (ConnectParser.machine.outputs (.new calls.length) calls)
      (ConnectGrammar (calls.map Call.byte)) := by
  intro h
  have hgrammar : ConnectGrammar ((callsFor userNameBody).map Call.byte) :=
    ⟨0x80, [0x61], [0, 1, 0x75], ⟨0, 0, [0, 1, 0x61, 0, 1, 0x75], by decide, by decide, by decide⟩,
      by simp, [0x75], [], by decide, rfl⟩
  have htrue := (h (callsFor userNameBody)).1.mpr hgrammar
  revert htrue
  decide

end ConnectParser

/-! ## §3 PUBLISH -/

/-- The grammar of a PUBLISH body with its parts: there is an identifier
exactly when the quality of service is above 0. -/
def PublishGrammar (qos : QoSLevel) (bytes topicName : Bytes) (identifier : Option PacketIdentifier)
    (payload : Bytes) : Prop :=
  (∀ c ∈ topicName, c ≠ plusSign ∧ c ≠ hashSign) ∧
    ∃ rest, takeString bytes = some (topicName, rest) ∧
      match identifier with
      | none => qos.value = 0 ∧ rest = payload
      | some id => qos.value > 0 ∧ ∃ msb lsb, rest = msb :: lsb :: payload ∧ id = join msb lsb

/-- The packet has these parts. -/
def PublishControlPacket.Has (packet : PublishControlPacket) (topicName : Bytes)
    (identifier : Option PacketIdentifier) (payload : Bytes) : Prop :=
  packet.topicName = ⟨topicName⟩ ∧ (∀ id, identifier = some id → packet.packetIdentifier = id) ∧
    packet.payload = payload

theorem TopicName.validate_iff (text : Bytes) :
    (TopicName.validate ⟨text⟩ none).1 = true ↔ ∀ c ∈ text, c ≠ plusSign ∧ c ≠ hashSign := by
  unfold TopicName.validate
  by_cases hwild : text.any (fun c => c = plusSign || c = hashSign)
  · rw [if_pos hwild]
    obtain ⟨c, hc, hwild⟩ := List.any_eq_true.mp hwild
    simp only [Bool.false_eq_true, false_iff]
    intro h
    simp [h c hc] at hwild
  · rw [if_neg hwild]
    simpa using hwild

/-- **The PUBLISH bodies that are accepted**: those of the grammar, without an
identifier only if there is a payload. -/
theorem publishOutcome_accepted_iff {qos : QoSLevel} {packet q : PublishControlPacket}
    {bytes : Bytes} {rest : List Call} :
    publishOutcome qos packet bytes = .accepted q rest ↔
      rest = [] ∧ ∃ topicName identifier payload,
        PublishGrammar qos bytes topicName identifier payload ∧
        (identifier = none → payload ≠ []) ∧
        q = ⟨⟨topicName⟩, identifier.getD packet.packetIdentifier, packet.payload ++ payload⟩ := by
  have hzero : QoSLevel.atMostOnce.value = 0 := rfl
  unfold publishOutcome
  rw [afterString_holds (P := fun o => o = .accepted q rest) (by simp)]
  constructor
  · rintro ⟨topicName, tail, htake, h⟩
    cases hvalid : (TopicName.validate ⟨topicName⟩ none).1 with
    | false => simp [hvalid] at h
    | true =>
      have htopic := (TopicName.validate_iff topicName).mp hvalid
      rw [if_neg (by simp [hvalid])] at h
      by_cases hqos : qos.value > QoSLevel.atMostOnce.value
      · rw [if_pos hqos] at h
        match tail, h with
        | msb :: lsb :: payload, h =>
          obtain ⟨rfl, rfl⟩ := Outcome.accepted.inj h
          exact ⟨rfl, topicName, some (join msb lsb), payload,
            ⟨htopic, _, htake, hqos, msb, lsb, rfl, rfl⟩, by simp, rfl⟩
      · rw [if_neg hqos] at h
        by_cases hnil : tail = []
        · simp [hnil] at h
        · rw [if_neg hnil] at h
          obtain ⟨rfl, rfl⟩ := Outcome.accepted.inj h
          exact ⟨rfl, topicName, none, tail, ⟨htopic, _, htake, by omega, rfl⟩, fun _ => hnil, rfl⟩
  · rintro ⟨rfl, topicName, identifier, payload, ⟨htopic, tail, htake, h⟩, hpayload, rfl⟩
    refine ⟨topicName, tail, htake, ?_⟩
    rw [if_neg (by rw [(TopicName.validate_iff topicName).mpr htopic]; simp)]
    cases identifier with
    | none =>
      obtain ⟨hqos, rfl⟩ := h
      rw [if_neg (by omega), if_neg (hpayload rfl)]
      rfl
    | some id =>
      obtain ⟨hqos, msb, lsb, rfl, rfl⟩ := h
      rw [if_pos (by omega)]
      rfl

/-- A body of the grammar that is decided has a payload where there is no
identifier. -/
theorem PublishGrammar.payload_ne_nil {qos : QoSLevel} {bytes topicName payload : Bytes}
    {identifier : Option PacketIdentifier}
    (h : PublishGrammar qos bytes topicName identifier payload)
    (hdecides : PublishDecides qos bytes) (hnone : identifier = none) : payload ≠ [] := by
  subst hnone
  obtain ⟨htopic, rest, htake, hqos, rfl⟩ := h
  obtain ⟨topicName', rest', htake', hdecides⟩ := hdecides
  obtain ⟨rfl, rfl⟩ := Prod.mk.inj (Option.some.inj (htake.symm.trans htake'))
  rw [(TopicName.validate_iff topicName).mpr htopic, if_neg (by simp [hqos])] at hdecides
  have hlength : 1 ≤ rest.length := hdecides.resolve_left (by simp)
  exact List.ne_nil_of_length_pos hlength

theorem PublishGrammar.unique {qos : QoSLevel} {bytes topicName topicName' payload payload' : Bytes}
    {identifier identifier' : Option PacketIdentifier}
    (h : PublishGrammar qos bytes topicName identifier payload)
    (h' : PublishGrammar qos bytes topicName' identifier' payload') :
    topicName = topicName' ∧ identifier = identifier' ∧ payload = payload' := by
  obtain ⟨-, rest, htake, h⟩ := h
  obtain ⟨-, rest', htake', h'⟩ := h'
  obtain ⟨rfl, rfl⟩ := Prod.mk.inj (Option.some.inj (htake.symm.trans htake'))
  refine ⟨rfl, ?_⟩
  cases identifier with
  | none =>
    cases identifier' with
    | none => exact ⟨rfl, h.2.symm.trans h'.2⟩
    | some id => exact absurd h.1 (Nat.ne_of_gt h'.1)
  | some id =>
    cases identifier' with
    | none => exact absurd h'.1 (Nat.ne_of_gt h.1)
    | some id' =>
      obtain ⟨-, msb, lsb, rfl, rfl⟩ := h
      obtain ⟨-, msb', lsb', heq, rfl⟩ := h'
      simp only [List.cons.injEq] at heq
      obtain ⟨rfl, rfl, rfl⟩ := heq
      exact ⟨rfl, rfl⟩

namespace PublishParser

/-- `PublishParser` fails for good. -/
theorem failsForGood : FailsForGood PublishParser.machine
    (fun p => p.Sound PublishMembers.IsReady) (fun p => p.Stuck PublishMembers.IsReady) where
  sound _ call hp := (parse_sound hp call.byte).2
  fails _ call hp hret :=
    (parse_sound hp call.byte).2.stuck ((BodyParser.parse_ret call.byte none).symm.trans hret)
  stays _ call hp := parse_stuck hp call.byte none

/-- **`PublishParser` accepts exactly the PUBLISH bodies**, and leaves their
parts in the packet, if and only if the body does not end too early. -/
theorem publish_grammar_iff (p : PublishParser) (qos : QoSLevel) (calls : List Call) :
    (AcceptsExactly (machine.outputs (p.reset qos calls.length) calls)
        (∃ topicName identifier payload,
          PublishGrammar qos (calls.map Call.byte) topicName identifier payload) ∧
      ∀ topicName identifier payload,
        PublishGrammar qos (calls.map Call.byte) topicName identifier payload →
        (machine.after (p.reset qos calls.length) calls).own.packet.Has topicName identifier
          payload) ↔
      PublishDecides qos (calls.map Call.byte) := by
  have hout := outcome_eq (p.reset qos calls.length).own rfl rfl rfl calls
  have haccepted : ∀ q rest, outcome machine (p.reset qos calls.length) calls = .accepted q rest →
      rest = [] ∧ ∃ topicName identifier payload,
        PublishGrammar qos (calls.map Call.byte) topicName identifier payload ∧
        q.own.packet.Has topicName identifier payload := by
    intro q rest hq
    obtain ⟨hrest, topicName, identifier, payload, hgrammar, -, hpacket⟩ :=
      publishOutcome_accepted_iff.mp (hout.symm.trans (Outcome.map_eq_accepted.mpr ⟨q, hq, rfl⟩))
    refine ⟨hrest, topicName, identifier, payload, hgrammar, ?_⟩
    rw [hpacket]
    refine ⟨rfl, ?_, List.nil_append payload⟩
    rintro id rfl
    rfl
  have hsound : (p.reset qos calls.length).Sound PublishMembers.IsReady :=
    .working rfl (by simp [PublishMembers.IsReady, reset])
  rw [acceptsExactly_iff_outcome failsForGood hsound fun q rest hq => (haccepted q rest hq).1]
  have hdecided : outcome machine (p.reset qos calls.length) calls ≠ .undecided ↔
      PublishDecides qos (calls.map Call.byte) := by
    rw [← publishOutcome_decided qos (p.reset qos calls.length).own.packet]
    exact not_congr (Outcome.map_eq_undecided.symm.trans (Eq.congr_left hout))
  rw [hdecided, and_assoc, and_iff_left_iff_imp]
  intro hdecides
  have haccepts : ∀ topicName identifier payload,
      PublishGrammar qos (calls.map Call.byte) topicName identifier payload →
      ∃ q, outcome machine (p.reset qos calls.length) calls = .accepted q [] := by
    intro topicName identifier payload hgrammar
    obtain ⟨q, hq, -⟩ := Outcome.map_eq_accepted.mp (hout.trans (publishOutcome_accepted_iff.mpr
      ⟨rfl, topicName, identifier, payload, hgrammar, hgrammar.payload_ne_nil hdecides, rfl⟩))
    exact ⟨q, hq⟩
  refine ⟨⟨?_, ?_⟩, ?_⟩
  · rintro ⟨q, hq⟩
    obtain ⟨-, topicName, identifier, payload, hgrammar, -⟩ := haccepted q [] hq
    exact ⟨topicName, identifier, payload, hgrammar⟩
  · rintro ⟨topicName, identifier, payload, hgrammar⟩
    exact haccepts topicName identifier payload hgrammar
  · intro topicName identifier payload hgrammar
    obtain ⟨q, hq⟩ := haccepts topicName identifier payload hgrammar
    obtain ⟨-, topicName', identifier', payload', hgrammar', hhas⟩ := haccepted q [] hq
    obtain ⟨rfl, rfl, rfl⟩ := hgrammar.unique hgrammar'
    rw [(answers_of_accepted hq).2.2]
    exact hhas

/-- A PUBLISH body without payload never ends. -/
theorem publish_grammar_fails :
    ¬ ∀ (p : PublishParser) (qos : QoSLevel) (calls : List Call),
      AcceptsExactly (machine.outputs (p.reset qos calls.length) calls)
        (∃ topicName identifier payload,
          PublishGrammar qos (calls.map Call.byte) topicName identifier payload) := by
  intro h
  have htrue := (h (.new .atMostOnce 0) .atMostOnce (callsFor [0, 1, 0x61])).1.mpr
    ⟨[0x61], none, [], by simp [plusSign, hashSign], [], by decide, rfl, rfl⟩
  revert htrue
  decide

end PublishParser

end Acatl.Mqtt

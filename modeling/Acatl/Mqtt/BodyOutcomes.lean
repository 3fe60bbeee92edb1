/-
Acatl.Mqtt.BodyOutcomes — runs of the body parsers over whole bodies.

`outcome` is how a run of any parser ends. §3 to §5 show for each body parser
that a run over as many bytes as it was told ends the way that
`Acatl.Mqtt.BodyGrammar` says of the bytes.
-/
import Acatl.Mqtt.BodyGrammar

namespace Acatl.Mqtt

open Acatl.Lib

/-! ## §1 One string -/

/-- A string and the bytes behind it, as `StringParser` reads them. -/
def StringParser.read : StringParser → Bytes → Option (Bytes × Bytes)
  | _, [] => none
  | p, byte :: bytes =>
    let r := p.parse byte none
    if r.ret.isTrue then some (r.parser.string, bytes)
    else if r.ret.isFalse then none
    else read r.parser bytes

theorem StringParser.read_data (n : Nat) : ∀ (ss bytes : Bytes),
    read ⟨.stringdata, n + 1, ss⟩ bytes =
      if n + 1 ≤ bytes.length then some (ss ++ bytes.take (n + 1), bytes.drop (n + 1)) else none := by
  induction n with
  | zero =>
    intro ss bytes
    cases bytes with
    | nil => simp [read]
    | cons byte bytes => simp [read, parse, string]
  | succ n ih =>
    intro ss bytes
    cases bytes with
    | nil => simp [read]
    | cons byte bytes => simp [read, parse, ih]

theorem StringParser.read_reset (bytes : Bytes) : read .reset bytes = takeString bytes := by
  unfold takeString
  match bytes with
  | [] => rfl
  | [_] => rfl
  | msb :: lsb :: rest =>
    simp only [read, parse, reset, Tribool.isTrue_indeterminate, Tribool.isFalse_indeterminate,
      Bool.false_eq_true, if_false]
    by_cases hzero : msb.toNat <<< 8 ||| lsb.toNat = 0
    · simp [hzero, string]
    · obtain ⟨n, hn⟩ := Nat.exists_eq_succ_of_ne_zero hzero
      simp [hn, read_data]

/-! ## §2 Runs -/

/-- The call returned true or false. -/
def Determinate (a : Tribool × ErrorCode) : Prop := a.1 ≠ .indeterminate

instance (a : Tribool × ErrorCode) : Decidable (Determinate a) :=
  inferInstanceAs (Decidable (_ ≠ _))

/-- How a run ends: at the first call that returns true or false. -/
def outcome {P : Type} (m : Machine P Call (Tribool × ErrorCode)) : P → List Call → Outcome P
  | _, [] => .undecided
  | p, call :: calls =>
    match (m p call).1.1 with
    | .indeterminate => outcome m (m p call).2 calls
    | .det true => .accepted (m p call).2 calls
    | .det false => .refused

section

variable {P : Type} {m : Machine P Call (Tribool × ErrorCode)} {p q : P} {call : Call}
  {calls rest : List Call}

theorem outcome_indeterminate (h : (m p call).1.1 = .indeterminate) :
    outcome m p (call :: calls) = outcome m (m p call).2 calls := by
  simp only [outcome, h]

theorem outcome_true (h : (m p call).1.1 = .det true) :
    outcome m p (call :: calls) = .accepted (m p call).2 calls := by
  simp only [outcome, h]

theorem outcome_false (h : (m p call).1.1 = .det false) :
    outcome m p (call :: calls) = .refused := by
  simp only [outcome, h]

/-- The calls before the first that is decided. -/
theorem outcome_append {front : List Call} (h : ∀ a ∈ m.outputs p front, a.1 = .indeterminate) :
    outcome m p (front ++ calls) = outcome m (m.after p front) calls := by
  induction front generalizing p with
  | nil => rfl
  | cons call front ih =>
    obtain ⟨hcall, hfront⟩ := List.forall_mem_cons.mp h
    rw [List.cons_append, outcome_indeterminate hcall, ih hfront]
    rfl

/-- A run is decided when it does not end too early. -/
theorem decided_iff_outcome :
    m.Decided Determinate p calls ↔ outcome m p calls ≠ .undecided := by
  induction calls generalizing p with
  | nil => simp [outcome]
  | cons call calls ih =>
    rw [Machine.decided_cons]
    cases hret : (m p call).1.1 with
    | indeterminate =>
      rw [outcome_indeterminate hret, ← ih]
      exact or_iff_right (fun h => h hret)
    | det b =>
      refine iff_of_true (.inl (by simp [Determinate, hret])) ?_
      cases b <;> simp [outcome_true, outcome_false, hret]

/-- **A run that is accepted**: undecided up to a call that returns true. -/
theorem outcome_eq_accepted_iff :
    outcome m p calls = .accepted q rest ↔ ∃ front last, calls = front ++ last :: rest ∧
      (∀ a ∈ m.outputs p front, a.1 = .indeterminate) ∧
      (m (m.after p front) last).1.1 = .det true ∧ (m (m.after p front) last).2 = q := by
  induction calls generalizing p with
  | nil => simp [outcome]
  | cons call calls ih =>
    cases hret : (m p call).1.1 with
    | indeterminate =>
      rw [outcome_indeterminate hret, ih]
      constructor
      · rintro ⟨front, last, rfl, hfront, hlast⟩
        exact ⟨call :: front, last, rfl, List.forall_mem_cons.mpr ⟨hret, hfront⟩, hlast⟩
      · rintro ⟨front, last, hcalls, hfront, hlast⟩
        cases front with
        | nil =>
          obtain ⟨rfl, rfl⟩ := List.cons.inj hcalls
          simp [hret] at hlast
        | cons first front =>
          obtain ⟨rfl, rfl⟩ := List.cons.inj hcalls
          exact ⟨front, last, rfl, (List.forall_mem_cons.mp hfront).2, hlast⟩
    | det b =>
      have hfirst : ∀ front last, call :: calls = front ++ last :: rest →
          (∀ a ∈ m.outputs p front, a.1 = .indeterminate) → front = [] := by
        intro front last hcalls hfront
        cases front with
        | nil => rfl
        | cons first front =>
          obtain ⟨rfl, -⟩ := List.cons.inj hcalls
          simp [hret] at hfront
      cases b with
      | true =>
        rw [outcome_true hret, Outcome.accepted.injEq]
        constructor
        · rintro ⟨rfl, rfl⟩
          exact ⟨[], call, rfl, by simp, hret, rfl⟩
        · rintro ⟨front, last, hcalls, hfront, -, hlast⟩
          obtain rfl := hfirst front last hcalls hfront
          obtain ⟨rfl, rfl⟩ := List.cons.inj hcalls
          exact ⟨hlast, rfl⟩
      | false =>
        rw [outcome_false hret]
        simp only [reduceCtorEq, false_iff]
        rintro ⟨front, last, hcalls, hfront, hlast, -⟩
        obtain rfl := hfirst front last hcalls hfront
        obtain ⟨rfl, rfl⟩ := List.cons.inj hcalls
        simp [hret] at hlast

/-- A machine inside another: as long as the inner one has not decided, the
outer one goes on with it, and they end in the same way. -/
theorem outcome_inner {Q R : Type} {n : Machine Q Call (Tribool × ErrorCode)}
    (f : P → R) (g : Q → R) (Rel : P → Q → Prop)
    (hret : ∀ p q call, Rel p q → (m p call).1.1 = (n q call).1.1)
    (hnext : ∀ p q call, Rel p q → (n q call).1.1 = .indeterminate → Rel (m p call).2 (n q call).2)
    (hlast : ∀ p q call, Rel p q → (n q call).1.1 = .det true →
      f (m p call).2 = g (n q call).2)
    {p : P} {q : Q} (h : Rel p q) (calls : List Call) :
    (outcome m p calls).map f = (outcome n q calls).map g := by
  induction calls generalizing p q with
  | nil => rfl
  | cons call calls ih =>
    cases hinner : (n q call).1.1 with
    | indeterminate =>
      rw [outcome_indeterminate hinner, outcome_indeterminate ((hret p q call h).trans hinner)]
      exact ih (hnext p q call h hinner)
    | det b =>
      cases b with
      | true =>
        rw [outcome_true hinner, outcome_true ((hret p q call h).trans hinner),
          Outcome.map_accepted, Outcome.map_accepted, hlast p q call h hinner]
      | false => rw [outcome_false hinner, outcome_false ((hret p q call h).trans hinner)]; rfl

end

namespace BodyParser

variable {α : Type} {switch : Bytes → BodyParser α → UInt8 → ErrorCode → ErrorCode × BodyParser α}
  {overlong : BodyParser α → BodyParser α}

/-- A body parser, with the error code cleared before each call. -/
def machine (switch : Bytes → BodyParser α → UInt8 → ErrorCode → ErrorCode × BodyParser α)
    (overlong : BodyParser α → BodyParser α) : Machine (BodyParser α) Call (Tribool × ErrorCode) :=
  fun p call => (parse (switch call.uuid) overlong p call.byte none).answer

variable {own own' : α} {call : Call} {calls : List Call}

/-! The calls of a parser that has as many bytes left as calls are made. -/

theorem outcome_later (h : (switch call.uuid ⟨.indeterminate, calls.length, own⟩ call.byte none).2 =
      ⟨.indeterminate, calls.length, own'⟩) :
    outcome (machine switch overlong) ⟨.indeterminate, (call :: calls).length, own⟩
        (call :: calls) =
      outcome (machine switch overlong) ⟨.indeterminate, calls.length, own'⟩ calls := by
  have hcall : (machine switch overlong ⟨.indeterminate, (call :: calls).length, own⟩ call) =
      ((.indeterminate, (switch call.uuid ⟨.indeterminate, calls.length, own⟩ call.byte none).1),
        ⟨.indeterminate, calls.length, own'⟩) := by
    rw [machine, parse_indeterminate (by simp) (Prod.ext rfl h) rfl]
    rfl
  rw [outcome_indeterminate (by rw [hcall]), hcall]

theorem outcome_refused
    (h : (switch call.uuid ⟨.indeterminate, calls.length, own⟩ call.byte none).2.ret = .det false) :
    outcome (machine switch overlong) ⟨.indeterminate, (call :: calls).length, own⟩
      (call :: calls) = .refused := by
  refine outcome_false ?_
  rw [machine, parse_false (by simp) rfl h]
  rfl

theorem outcome_ended (calls : List Call)
    (h : (switch call.uuid ⟨.indeterminate, calls.length, own⟩ call.byte none).2 =
      ⟨.det true, calls.length, own'⟩) :
    outcome (machine switch overlong) ⟨.indeterminate, (call :: calls).length, own⟩
        (call :: calls) =
      ended ⟨.det true, calls.length, own'⟩ (calls.map Call.byte) := by
  have hswitch : switch call.uuid ⟨.indeterminate, calls.length, own⟩ call.byte none =
      (_, ⟨.det true, calls.length, own'⟩) := Prod.ext rfl h
  have hcall : parse (switch call.uuid) overlong ⟨.indeterminate, (call :: calls).length, own⟩
      call.byte none = _ := parse_true (by simp) hswitch rfl
  unfold ended
  cases calls with
  | nil =>
    rw [outcome_true (by rw [machine, hcall]; rfl), machine, hcall]
    rfl
  | cons call' calls => exact outcome_false (by rw [machine, hcall]; rfl)

variable (switch overlong) in
/-- **A string in a body.** `own` is the parser around the string parser: it
stays as it is until the call that completes the string. -/
theorem outcome_string (own : StringParser → α)
    (hmore : ∀ sp sp' length (call : Call), sp.parse call.byte none = ⟨.indeterminate, none, sp'⟩ →
      (switch call.uuid ⟨.indeterminate, length, own sp⟩ call.byte none).2 =
        ⟨.indeterminate, length, own sp'⟩)
    (calls : List Call) :
    (takeString (calls.map Call.byte) = none ∧
      outcome (machine switch overlong) ⟨.indeterminate, calls.length, own .reset⟩ calls =
        .undecided) ∨
    ∃ (sp sp' : StringParser) (call : Call) (rest : List Call),
      takeString (calls.map Call.byte) = some (sp'.string, rest.map Call.byte) ∧
      sp.parse call.byte none = ⟨.det true, none, sp'⟩ ∧
      outcome (machine switch overlong) ⟨.indeterminate, calls.length, own .reset⟩ calls =
        outcome (machine switch overlong) ⟨.indeterminate, (call :: rest).length, own sp⟩
          (call :: rest) := by
  rw [← StringParser.read_reset]
  have hclean := ConnectParser.Clean.reset
  generalize StringParser.reset = sp at hclean ⊢
  induction calls generalizing sp with
  | nil => exact .inl ⟨rfl, rfl⟩
  | cons call calls ih =>
    rw [List.map_cons, StringParser.read]
    rcases hclean.parse call.byte with ⟨sp', hparse, hsp', -⟩ | ⟨sp', hparse, -⟩
    · have hrest := ih sp' hsp'
      rw [outcome_later (hmore sp sp' _ call hparse), hparse]
      simpa using hrest
    · refine .inr ⟨sp, sp', call, calls, ?_, hparse, rfl⟩
      rw [hparse]
      simp

/-- **A packet identifier in a body.** `high` is the parser with the first of its
two bytes. -/
theorem outcome_identifier (high : UInt8 → α)
    (hmsb : ∀ length (call : Call),
      (switch call.uuid ⟨.indeterminate, length, own⟩ call.byte none).2 =
        ⟨.indeterminate, length, high call.byte⟩) :
    ∀ calls : List Call,
      outcome (machine switch overlong) ⟨.indeterminate, calls.length, own⟩ calls =
        match calls with
        | msb :: lsb :: rest =>
          outcome (machine switch overlong) ⟨.indeterminate, (lsb :: rest).length, high msb.byte⟩
            (lsb :: rest)
        | _ => .undecided
  | [] => rfl
  | [msb] => outcome_later (hmsb 0 msb)
  | msb :: lsb :: rest => outcome_later (hmsb (lsb :: rest).length msb)

end BodyParser

theorem PublishParser.machine_eq :
    PublishParser.machine = BodyParser.machine (fun _ => PublishParser.switch) id := rfl

theorem SubAckParser.machine_eq :
    SubAckParser.machine = BodyParser.machine (fun _ => SubAckParser.switch) id := rfl

theorem SubscribeParser.machine_eq (sort : TopicFilters → TopicFilters) :
    SubscribeParser.machine sort = BodyParser.machine (fun _ => SubscribeParser.switch sort)
      (fun p => { p with own.status := .ready }) := rfl

theorem ConnectParser.machine_eq :
    ConnectParser.machine = BodyParser.machine ConnectParser.switch id := rfl

/-! ## §3 PUBLISH and SUBACK -/

/-- The two bytes of a packet identifier. -/
theorem PacketIdentifierParser.parse_first {p : PacketIdentifierParser} (h : p.status = .start)
    (byte : UInt8) :
    p.parse byte none = ⟨.indeterminate, none, ⟨.readIdentifier, byte.toUInt16 <<< 8⟩⟩ := by
  simp [parse, h]

theorem PacketIdentifierParser.parse_second (high byte : UInt8) :
    parse ⟨.readIdentifier, high.toUInt16 <<< 8⟩ byte none =
      ⟨.det true, none, ⟨.ready, join high byte⟩⟩ := rfl

namespace PublishParser

theorem outcome_payload (calls : List Call) : ∀ own : PublishMembers, own.status = .payload →
    (outcome PublishParser.machine ⟨.indeterminate, calls.length, own⟩ calls).map (·.own.packet) =
      if calls = [] then .undecided
      else
        .accepted { own.packet with payload := own.packet.payload ++ calls.map Call.byte } [] := by
  rw [machine_eq]
  induction calls with
  | nil => intro own _; rfl
  | cons call calls ih =>
    intro own hs
    cases calls with
    | nil =>
      have hlast : (switch ⟨.indeterminate, 0, own⟩ call.byte none).2 = ⟨.det true, 0, { own with
          packet.payload := own.packet.payload ++ [call.byte], status := .ready }⟩ := by
        simp [switch, hs, finish]
      rw [BodyParser.outcome_ended [] hlast]
      rfl
    | cons call' calls =>
      have hnext : (switch ⟨.indeterminate, (call' :: calls).length, own⟩ call.byte none).2 =
          ⟨.indeterminate, (call' :: calls).length,
            { own with packet.payload := own.packet.payload ++ [call.byte] }⟩ := by
        simp [switch, hs]
      have hrest := ih { own with packet.payload := own.packet.payload ++ [call.byte] } hs
      rw [BodyParser.outcome_later hnext, hrest]
      simp

theorem outcome_identifier (own : PublishMembers) (hs : own.status = .packetIdentifier)
    (hid : own.identifierParser.status = .start) (calls : List Call) :
    (outcome PublishParser.machine ⟨.indeterminate, calls.length, own⟩ calls).map (·.own.packet) =
      match calls.map Call.byte with
      | msb :: lsb :: payload => .accepted { own.packet with
          packetIdentifier := join msb lsb, payload := own.packet.payload ++ payload } []
      | _ => .undecided := by
  rw [machine_eq, BodyParser.outcome_identifier (fun byte => { own with identifierParser :=
    ⟨.readIdentifier, byte.toUInt16 <<< 8⟩ }) fun length call => by
      simp [switch, hs, PacketIdentifierParser.parse_first hid]]
  match calls with
  | [] | [_] => rfl
  | [msb, lsb] =>
    have hlsb : (switch ⟨.indeterminate, 0, { own with identifierParser :=
        ⟨.readIdentifier, msb.byte.toUInt16 <<< 8⟩ }⟩ lsb.byte none).2 =
        ⟨.det true, 0, { own with
          identifierParser := ⟨.ready, join msb.byte lsb.byte⟩
          packet.packetIdentifier := join msb.byte lsb.byte
          status := .ready }⟩ := by
      simp [switch, hs, PacketIdentifierParser.parse_second, finish]
    dsimp only
    rw [BodyParser.outcome_ended [] hlsb]
    simp [ended]
  | msb :: lsb :: call :: calls =>
    have hlsb : (switch ⟨.indeterminate, (call :: calls).length, { own with identifierParser :=
        ⟨.readIdentifier, msb.byte.toUInt16 <<< 8⟩ }⟩ lsb.byte none).2 =
        ⟨.indeterminate, (call :: calls).length, { own with
          identifierParser := ⟨.ready, join msb.byte lsb.byte⟩
          packet.packetIdentifier := join msb.byte lsb.byte
          status := .payload }⟩ := by
      simp [switch, hs, PacketIdentifierParser.parse_second]
    dsimp only
    rw [BodyParser.outcome_later hlsb, ← machine_eq, outcome_payload (call :: calls) _ rfl]
    rfl

/-- **A PUBLISH body.** -/
theorem outcome_eq (own : PublishMembers) (hs : own.status = .topicName)
    (hsp : own.stringParser = .reset) (hid : own.identifierParser.status = .start)
    (calls : List Call) :
    (outcome PublishParser.machine ⟨.indeterminate, calls.length, own⟩ calls).map (·.own.packet) =
      publishOutcome own.qos own.packet (calls.map Call.byte) := by
  have hown : own = { own with stringParser := .reset } := by rw [← hsp]
  unfold publishOutcome
  rcases BodyParser.outcome_string (fun _ => switch) id
      (fun sp => { own with stringParser := sp })
      (by intro sp sp' length call hparse; simp [switch, hs, hparse]) calls with
    ⟨htake, hout⟩ | ⟨sp, sp', call, rest, htake, hparse, hout⟩
  · rw [machine_eq, hown, hout, afterString_none htake]
    rfl
  rw [machine_eq, hown, hout, afterString_some htake]
  cases hvalid : (TopicName.validate ⟨sp'.string⟩ none).1 with
  | false =>
    rw [BodyParser.outcome_refused (by simp [switch, hs, hparse, hvalid, finish]), if_pos rfl]
    rfl
  | true =>
    have hnext : (switch ⟨.indeterminate, rest.length, { own with stringParser := sp }⟩
        call.byte none).2 = ⟨.indeterminate, rest.length, { own with
          packet.topicName := ⟨sp'.string⟩
          status := if own.qos.value > QoSLevel.atMostOnce.value then .packetIdentifier
            else .payload
          stringParser := .reset }⟩ := by
      simp [switch, hs, hparse, hvalid]
    rw [BodyParser.outcome_later hnext, ← machine_eq]
    simp only [Bool.true_eq_false, if_false]
    by_cases hqos : own.qos.value > QoSLevel.atMostOnce.value
    · refine (outcome_identifier _ ?_ ?_ rest).trans ?_
      · exact if_pos hqos
      · exact hid
      · simp only [if_pos hqos]
        rfl
    · refine (outcome_payload rest _ ?_).trans ?_
      · exact if_neg hqos
      · simp [if_neg hqos]

end PublishParser

namespace ConnectAckParser

/-- `ConnectAckParser`, with the error code cleared before each call. -/
def machine : Machine ConnectAckParser Call (Tribool × ErrorCode) :=
  fun p call => (p.parse call.byte none).answer

/-- **A CONNACK body.** The parser takes two bytes, whatever the length. -/
theorem decided_iff (p : ConnectAckParser) (hs : p.status = .connectAcknowledgeFlag)
    (calls : List Call) :
    machine.Decided Determinate p calls ↔ ConnAckDecides (calls.map Call.byte) := by
  cases calls with
  | nil => simp [ConnAckDecides]
  | cons flags calls =>
    rw [Machine.decided_cons, List.map_cons, ConnAckDecides]
    unfold machine ParseResult.answer Determinate
    by_cases hflags : flags.byte &&& 0xFE ≠ 0
    · refine iff_of_true (.inl ?_) (.inl hflags)
      simp only [parse, hs, if_pos hflags]
      simp
    rw [or_iff_right hflags]
    simp only [parse, hs, if_neg hflags]
    cases calls with
    | nil => simp
    | cons code calls =>
      refine iff_of_true (.inr (Machine.decided_cons.mpr (.inl ?_))) (by simp)
      by_cases hcode : code.byte > 5
      · simp only [if_pos hcode]
        simp
      · simp only [if_neg hcode]
        simp

end ConnectAckParser

namespace SubAckParser

theorem outcome_qoS (calls : List Call) : ∀ own : SubAckMembers, own.status = .qoS →
    (outcome SubAckParser.machine ⟨.indeterminate, calls.length, own⟩ calls).map (·.own.packet) =
      if calls = [] then .undecided
      else if ∀ code ∈ calls.map Call.byte, code ≤ 0x02 then .accepted { own.packet with
        qosLevels := own.packet.qosLevels ++ (calls.map Call.byte).map .ofBits } []
      else .refused := by
  rw [machine_eq]
  induction calls with
  | nil => intro own _; rfl
  | cons call calls ih =>
    intro own hs
    rw [if_neg (List.cons_ne_nil _ _)]
    by_cases hbyte : call.byte > 0x02
    · have hcodes : ¬ ∀ code ∈ (call :: calls).map Call.byte, code ≤ 0x02 := fun h =>
        absurd hbyte (UInt8.not_lt.mpr (h call.byte (by simp)))
      rw [BodyParser.outcome_refused (by simp only [switch, hs, if_pos hbyte, finish]),
        if_neg hcodes]
      rfl
    · have hcode : call.byte ≤ 0x02 := UInt8.not_lt.mp hbyte
      cases calls with
      | nil =>
        have hlast : (switch ⟨.indeterminate, 0, own⟩ call.byte none).2 = ⟨.det true, 0, { own with
            packet.qosLevels := own.packet.qosLevels ++ [.ofBits call.byte]
            status := .ready }⟩ := by
          simp only [switch, hs, if_neg hbyte, finish, if_true]
        rw [BodyParser.outcome_ended [] hlast]
        simp [ended, hcode]
      | cons call' calls =>
        have hnext : (switch ⟨.indeterminate, (call' :: calls).length, own⟩ call.byte none).2 =
            ⟨.indeterminate, (call' :: calls).length,
              { own with packet.qosLevels := own.packet.qosLevels ++ [.ofBits call.byte] }⟩ := by
          simp only [switch, hs, if_neg hbyte]
          simp
        have hrest := ih { own with
          packet.qosLevels := own.packet.qosLevels ++ [.ofBits call.byte] } hs
        rw [BodyParser.outcome_later hnext, hrest]
        simp [hcode]

/-- **A SUBACK body.** -/
theorem outcome_eq (own : SubAckMembers) (hs : own.status = .packetIdentifier)
    (hid : own.identifierParser.status = .start) (calls : List Call) :
    (outcome SubAckParser.machine ⟨.indeterminate, calls.length, own⟩ calls).map (·.own.packet) =
      subAckOutcome own.packet (calls.map Call.byte) := by
  rw [machine_eq, BodyParser.outcome_identifier (fun byte => { own with identifierParser :=
    ⟨.readIdentifier, byte.toUInt16 <<< 8⟩ }) fun length call => by
      simp [switch, hs, PacketIdentifierParser.parse_first hid]]
  match calls with
  | [] | [_] => rfl
  | [msb, lsb] =>
    have hlsb : (switch ⟨.indeterminate, 0, { own with identifierParser :=
        ⟨.readIdentifier, msb.byte.toUInt16 <<< 8⟩ }⟩ lsb.byte none).2 =
        ⟨.det true, 0, { own with
          identifierParser := ⟨.ready, join msb.byte lsb.byte⟩
          packet.packetIdentifier := join msb.byte lsb.byte
          status := .ready }⟩ := by
      simp [switch, hs, PacketIdentifierParser.parse_second, finish]
    dsimp only
    rw [BodyParser.outcome_ended [] hlsb]
    simp [ended, subAckOutcome]
  | msb :: lsb :: call :: calls =>
    have hlsb : (switch ⟨.indeterminate, (call :: calls).length, { own with identifierParser :=
        ⟨.readIdentifier, msb.byte.toUInt16 <<< 8⟩ }⟩ lsb.byte none).2 =
        ⟨.indeterminate, (call :: calls).length, { own with
          identifierParser := ⟨.ready, join msb.byte lsb.byte⟩
          packet.packetIdentifier := join msb.byte lsb.byte
          status := .qoS }⟩ := by
      simp [switch, hs, PacketIdentifierParser.parse_second]
    dsimp only
    rw [BodyParser.outcome_later hlsb, ← machine_eq, outcome_qoS (call :: calls) _ rfl,
      if_neg (List.cons_ne_nil _ _)]
    rfl

end SubAckParser

/-! ## §4 SUBSCRIBE -/

namespace SubscribeParser

section

variable (sort : TopicFilters → TopicFilters) (own : SubscribeMembers) {qos : UInt8}

/-- The quality of service byte, and the filter with it, is refused. -/
theorem switch_refused (hs : own.status = .qoS) (h : FilterRefused own.topicFilter.filter qos)
    (length : Nat) :
    (switch sort ⟨.indeterminate, length, own⟩ qos none).2.ret = .det false := by
  by_cases hbits : qos &&& 0xFC ≠ 0 ∨ qos &&& 0x03 > 2
  · simp only [switch, hs, if_pos hbits, finish]
  · have hvalid : (TopicFilter.validate ⟨own.topicFilter.filter, .ofBits (qos &&& 0x03)⟩
        none).1 = false := by
      rcases h with h | h | h
      · exact absurd (.inl h) hbits
      · exact absurd (.inr h) hbits
      · exact h
    simp only [switch, hs, if_neg hbits, hvalid, finish]
    simp

/-- The filter is added, and the list is complete with the last one. -/
theorem switch_filter (hs : own.status = .qoS)
    (h : ¬ FilterRefused own.topicFilter.filter qos) (length : Nat) :
    let filter : TopicFilter := ⟨own.topicFilter.filter, .ofBits (qos &&& 0x03)⟩
    (switch sort ⟨.indeterminate, length, own⟩ qos none).2 =
      if length > 0 then ⟨.indeterminate, length, { own with
        topicFilter := filter
        packet.topicFilters := own.packet.topicFilters ++ [filter]
        status := .topicFilter }⟩
      else ⟨.det true, length, { own with
        topicFilter := filter
        packet.topicFilters := unique (sort (own.packet.topicFilters ++ [filter]))
        status := .ready }⟩ := by
  intro filter
  unfold FilterRefused at h
  rw [not_or, not_or, Bool.not_eq_false] at h
  have hbits : ¬ (qos &&& 0xFC ≠ 0 ∨ qos &&& 0x03 > 2) := not_or.mpr ⟨h.1, h.2.1⟩
  simp only [switch, hs, if_neg hbits, h.2.2, finish, not_true_eq_false, if_false]
  split <;> rfl

end

/-- The filters. The induction is on a bound for the length: the bytes behind
one filter are as many filters again. -/
theorem outcome_filters (sort : TopicFilters → TopicFilters) (n : Nat) :
    ∀ (calls : List Call) (own : SubscribeMembers), calls.length < n →
      own.status = .topicFilter → own.stringParser = .reset →
      (outcome (SubscribeParser.machine sort) ⟨.indeterminate, calls.length, own⟩ calls).map
          (·.own.packet) =
        (filtersOutcome own.packet.topicFilters (calls.map Call.byte)).map fun filters =>
          ⟨own.packet.packetIdentifier, unique (sort filters)⟩ := by
  induction n with
  | zero => intro calls own hn; omega
  | succ n ih =>
    intro calls own hn hs hsp
    have hown : own = { own with stringParser := .reset } := by rw [← hsp]
    rcases BodyParser.outcome_string (fun _ => switch sort)
        (fun p => { p with own.status := .ready })
        (fun sp => { own with stringParser := sp })
        (by intro sp sp' length call hparse; simp [switch, hs, hparse]) calls with
      ⟨htake, hout⟩ | ⟨sp, sp', call, rest, htake, hparse, hout⟩
    · rw [machine_eq, hown, hout, filtersOutcome_none htake]
      rfl
    have hlength := takeString_length htake
    rw [List.length_map, List.length_map] at hlength
    have hfilter : (switch sort ⟨.indeterminate, rest.length, { own with stringParser := sp }⟩
        call.byte none).2 = ⟨.indeterminate, rest.length, { own with
          topicFilter := { filter := sp'.string }
          status := .qoS
          stringParser := .reset }⟩ := by
      simp [switch, hs, hparse]
    rw [machine_eq, hown, hout, BodyParser.outcome_later hfilter]
    cases rest with
    | nil =>
      rw [filtersOutcome_open htake]
      rfl
    | cons qos rest =>
      rw [List.length_cons] at hlength
      rw [filtersOutcome_cons htake]
      by_cases hrefused : FilterRefused sp'.string qos.byte
      · rw [if_pos hrefused, BodyParser.outcome_refused (switch_refused sort _ rfl hrefused _)]
        rfl
      have hswitch := switch_filter sort { own with
        topicFilter := { filter := sp'.string }
        status := .qoS
        stringParser := .reset } rfl hrefused rest.length
      rw [if_neg hrefused]
      cases rest with
      | nil =>
        rw [BodyParser.outcome_ended [] hswitch]
        rfl
      | cons call' rest =>
        rw [BodyParser.outcome_later hswitch, ← machine_eq, ih _ _ (by omega) rfl rfl]
        rfl

/-- **A SUBSCRIBE body.** -/
theorem outcome_eq (sort : TopicFilters → TopicFilters) (own : SubscribeMembers)
    (hs : own.status = .packetIdentifier) (hid : own.identifierParser.status = .start)
    (calls : List Call) :
    (outcome (SubscribeParser.machine sort) ⟨.indeterminate, calls.length, own⟩ calls).map
        (·.own.packet) =
      subscribeOutcome sort own.packet (calls.map Call.byte) := by
  rw [machine_eq, BodyParser.outcome_identifier (fun byte => { own with identifierParser :=
    ⟨.readIdentifier, byte.toUInt16 <<< 8⟩ }) fun length call => by
      simp [switch, hs, PacketIdentifierParser.parse_first hid]]
  match calls with
  | [] | [_] => rfl
  | msb :: lsb :: calls =>
    have hlsb : (switch sort ⟨.indeterminate, calls.length, { own with identifierParser :=
        ⟨.readIdentifier, msb.byte.toUInt16 <<< 8⟩ }⟩ lsb.byte none).2 =
        ⟨.indeterminate, calls.length, { own with
          identifierParser := ⟨.ready, join msb.byte lsb.byte⟩
          packet.packetIdentifier := join msb.byte lsb.byte
          status := .topicFilter
          stringParser := .reset }⟩ := by
      simp [switch, hs, PacketIdentifierParser.parse_second]
    dsimp only
    rw [BodyParser.outcome_later hlsb, ← machine_eq]
    exact outcome_filters sort _ calls _ (Nat.lt_succ_self _) rfl rfl

end SubscribeParser

/-! ## §5 CONNECT -/

namespace ConnectParser

/-- The statuses that read a string. -/
def Status.ReadsString : ConnectParser.Status → Prop
  | .protocolName | .clientId | .willTopic | .willMessage | .username | .password => True
  | .protocolLevel | .connectFlags | .keepAliveMsb | .keepAliveLsb | .ready => False

theorem switch_more {own : ConnectMembers} (h : own.status.ReadsString) {sp sp' : StringParser}
    {byte : UInt8} (hparse : sp.parse byte none = ⟨.indeterminate, none, sp'⟩) (uuid : Bytes)
    (length : Nat) :
    (switch uuid ⟨.indeterminate, length, { own with stringParser := sp }⟩ byte none).2 =
      ⟨.indeterminate, length, { own with stringParser := sp' }⟩ := by
  unfold switch
  cases hs : own.status with
  | protocolName | clientId | willTopic | willMessage | username | password =>
    simp [readString, hparse]
  | protocolLevel | connectFlags | keepAliveMsb | keepAliveLsb | ready =>
    simp [hs, Status.ReadsString] at h

/-- A string in a CONNECT body. -/
theorem outcome_string {own : ConnectMembers} (h : own.status.ReadsString)
    (hsp : own.stringParser = .reset) (calls : List Call) :
    (takeString (calls.map Call.byte) = none ∧
      outcome ConnectParser.machine ⟨.indeterminate, calls.length, own⟩ calls = .undecided) ∨
    ∃ (sp sp' : StringParser) (call : Call) (rest : List Call),
      takeString (calls.map Call.byte) = some (sp'.string, rest.map Call.byte) ∧
      sp.parse call.byte none = ⟨.det true, none, sp'⟩ ∧
      outcome ConnectParser.machine ⟨.indeterminate, calls.length, own⟩ calls =
        outcome ConnectParser.machine
          ⟨.indeterminate, (call :: rest).length, { own with stringParser := sp }⟩
          (call :: rest) := by
  have hown : own = { own with stringParser := .reset } := by rw [← hsp]
  rw [machine_eq, hown]
  exact BodyParser.outcome_string switch _ (fun sp => { own with stringParser := sp })
    (fun sp sp' length call hparse => switch_more h hparse call.uuid length) calls

/-- A complete string takes the parser to another state. -/
theorem outcome_switch {own own' : ConnectMembers} {call : Call} {rest : List Call}
    (h : (switch call.uuid ⟨.indeterminate, rest.length, own⟩ call.byte none).2 =
      ⟨.indeterminate, rest.length, own'⟩) :
    outcome ConnectParser.machine ⟨.indeterminate, (call :: rest).length, own⟩ (call :: rest) =
      outcome ConnectParser.machine ⟨.indeterminate, rest.length, own'⟩ rest := by
  rw [machine_eq, BodyParser.outcome_later h]

theorem outcome_password (own : ConnectMembers) (hs : own.status = .password)
    (hsp : own.stringParser = .reset) (calls : List Call) :
    (outcome ConnectParser.machine ⟨.indeterminate, calls.length, own⟩ calls).map (·.own.packet) =
      passwordOutcome own.packet (calls.map Call.byte) := by
  unfold passwordOutcome
  rcases outcome_string (by rw [hs]; trivial) hsp calls with
    ⟨htake, hout⟩ | ⟨sp, sp', call, rest, htake, hparse, hout⟩
  · rw [hout, afterString_none htake]
    rfl
  have hlast : (switch call.uuid ⟨.indeterminate, rest.length, { own with stringParser := sp }⟩
      call.byte none).2 = ⟨.det true, rest.length, { own with
        packet.password := sp'.string, status := .ready, stringParser := sp' }⟩ := by
    simp [switch, hs, readString, hparse]
  rw [hout, afterString_some htake, machine_eq, BodyParser.outcome_ended _ hlast, map_ended]

theorem outcome_username (own : ConnectMembers) (hs : own.status = .username)
    (hsp : own.stringParser = .reset) (calls : List Call) :
    (outcome ConnectParser.machine ⟨.indeterminate, calls.length, own⟩ calls).map (·.own.packet) =
      afterString (calls.map Call.byte) fun userName rest =>
        passwordOutcome { own.packet with userName := userName } rest := by
  rcases outcome_string (by rw [hs]; trivial) hsp calls with
    ⟨htake, hout⟩ | ⟨sp, sp', call, rest, htake, hparse, hout⟩
  · rw [hout, afterString_none htake]
    rfl
  have hnext : (switch call.uuid ⟨.indeterminate, rest.length, { own with stringParser := sp }⟩
      call.byte none).2 = ⟨.indeterminate, rest.length, { own with
        packet.userName := sp'.string, status := .password, stringParser := .reset }⟩ := by
    simp [switch, hs, readString, hparse]
  rw [hout, afterString_some htake, outcome_switch hnext]
  exact outcome_password _ rfl rfl rest

theorem outcome_willMessage (own : ConnectMembers) (hs : own.status = .willMessage)
    (hsp : own.stringParser = .reset) (calls : List Call) :
    (outcome ConnectParser.machine ⟨.indeterminate, calls.length, own⟩ calls).map (·.own.packet) =
      afterString (calls.map Call.byte) fun willMessage rest =>
        authorizationOutcome { own.packet with willMessage := willMessage } rest := by
  rcases outcome_string (by rw [hs]; trivial) hsp calls with
    ⟨htake, hout⟩ | ⟨sp, sp', call, rest, htake, hparse, hout⟩
  · rw [hout, afterString_none htake]
    rfl
  rw [hout, afterString_some htake]
  rcases Bool.eq_false_or_eq_true own.packet.userNameFlag with huser | huser
  · have hnext : (switch call.uuid ⟨.indeterminate, rest.length, { own with stringParser := sp }⟩
        call.byte none).2 = ⟨.indeterminate, rest.length, { own with
          packet.willMessage := sp'.string, status := .username, stringParser := .reset }⟩ := by
      simp [switch, hs, readString, hparse, huser]
    rw [outcome_switch hnext]
    refine (outcome_username _ rfl rfl rest).trans (authorizationOutcome_user ?_ _).symm
    exact huser
  · have hlast : (switch call.uuid ⟨.indeterminate, rest.length, { own with stringParser := sp }⟩
        call.byte none).2 = ⟨.det true, rest.length, { own with
          packet.willMessage := sp'.string, status := .ready, stringParser := .reset }⟩ := by
      simp [switch, hs, readString, hparse, huser]
    rw [machine_eq, BodyParser.outcome_ended _ hlast, map_ended]
    refine (authorizationOutcome_none ?_ _).symm
    exact huser

theorem outcome_willTopic (own : ConnectMembers) (hs : own.status = .willTopic)
    (hsp : own.stringParser = .reset) (calls : List Call) :
    (outcome ConnectParser.machine ⟨.indeterminate, calls.length, own⟩ calls).map (·.own.packet) =
      afterString (calls.map Call.byte) fun willTopic rest =>
        afterString rest fun willMessage rest =>
          authorizationOutcome
            { own.packet with willTopic := willTopic, willMessage := willMessage } rest := by
  rcases outcome_string (by rw [hs]; trivial) hsp calls with
    ⟨htake, hout⟩ | ⟨sp, sp', call, rest, htake, hparse, hout⟩
  · rw [hout, afterString_none htake]
    rfl
  have hnext : (switch call.uuid ⟨.indeterminate, rest.length, { own with stringParser := sp }⟩
      call.byte none).2 = ⟨.indeterminate, rest.length, { own with
        packet.willTopic := sp'.string, status := .willMessage, stringParser := .reset }⟩ := by
    simp [switch, hs, readString, hparse]
  rw [hout, afterString_some htake, outcome_switch hnext]
  exact outcome_willMessage _ rfl rfl rest

/-- What follows the client identifier, from the call that completes it: the
parser has not failed, or nothing is to follow. -/
theorem outcome_afterClientId {own stored : ConnectMembers} {ret : Tribool} {call : Call}
    {rest : List Call}
    (hswitch : (switch call.uuid ⟨.indeterminate, rest.length, own⟩ call.byte none).2 =
      afterClientId ⟨ret, rest.length, stored⟩)
    (hret : ret = .indeterminate ∨
      stored.packet.willFlag = false ∧ stored.packet.userNameFlag = false) :
    (outcome ConnectParser.machine ⟨.indeterminate, (call :: rest).length, own⟩
        (call :: rest)).map (·.own.packet) =
      optionalOutcome stored.packet (rest.map Call.byte) := by
  unfold afterClientId at hswitch
  rcases Bool.eq_false_or_eq_true stored.packet.willFlag with hwill | hwill
  · obtain rfl : ret = .indeterminate := by simpa [hwill] using hret
    simp only [hwill, if_true] at hswitch
    rw [outcome_switch hswitch, optionalOutcome_will hwill]
    exact outcome_willTopic _ rfl rfl rest
  · rw [optionalOutcome_none hwill]
    rcases Bool.eq_false_or_eq_true stored.packet.userNameFlag with huser | huser
    · obtain rfl : ret = .indeterminate := by simpa [huser] using hret
      simp only [hwill, huser, Bool.false_eq_true, if_false, if_true] at hswitch
      rw [outcome_switch hswitch, authorizationOutcome_user huser]
      exact outcome_username _ rfl rfl rest
    · simp only [hwill, huser, Bool.false_eq_true, if_false] at hswitch
      rw [machine_eq, BodyParser.outcome_ended _ hswitch, map_ended,
        authorizationOutcome_none huser]

/-- The client identifier. The generator is asked by the call that completes an
empty one. -/
theorem outcome_clientId (own : ConnectMembers) (hs : own.status = .clientId)
    (hsp : own.stringParser = .reset) (calls : List Call) :
    ∃ uuid, (outcome ConnectParser.machine ⟨.indeterminate, calls.length, own⟩ calls).map
        (·.own.packet) = clientIdOutcome uuid own.packet (calls.map Call.byte) := by
  unfold clientIdOutcome
  rcases outcome_string (by rw [hs]; trivial) hsp calls with
    ⟨htake, hout⟩ | ⟨sp, sp', call, rest, htake, hparse, hout⟩
  · exact ⟨[], by rw [hout, afterString_none htake]; rfl⟩
  refine ⟨call.uuid, ?_⟩
  rw [hout, afterString_some htake]
  have hswitch : switch call.uuid ⟨.indeterminate, rest.length, { own with stringParser := sp }⟩
      call.byte none = clientIdDone call.uuid
        ⟨.indeterminate, rest.length, { own with stringParser := sp' }⟩ sp'.string none := by
    simp [switch, hs, readString, hparse]
  unfold clientIdDone at hswitch
  rw [storeClientId_eq] at hswitch
  by_cases hrefused : sp'.string = [] ∧ own.packet.cleanSession = false
  · rw [if_pos hrefused] at hswitch
    have hdone := congrArg Prod.snd hswitch
    by_cases hfollows : own.packet.willFlag = true ∨ own.packet.userNameFlag = true
    · rw [if_pos ⟨hrefused.1, hrefused.2, hfollows⟩, machine_eq, BodyParser.outcome_refused]
      · rfl
      · rw [hdone]
        rcases (afterClientId_cases ⟨.det false, rest.length, _⟩).2 with
          ⟨-, hret, -⟩ | ⟨-, -, hret, -⟩ | ⟨hwill, huser, -⟩
        · exact hret
        · exact hret
        · exact absurd hfollows (by rw [hwill, huser]; simp)
    · rw [if_neg (fun h => hfollows h.2.2), if_pos hrefused.1]
      refine outcome_afterClientId hdone (.inr ?_)
      simpa using hfollows
  · rw [if_neg hrefused] at hswitch
    rw [if_neg (fun h => hrefused ⟨h.1, h.2.1⟩)]
    exact outcome_afterClientId (congrArg Prod.snd hswitch) (.inl rfl)

/-- The flags byte, the keep alive interval and what is behind them. -/
theorem outcome_connectFlags (own : ConnectMembers) (hs : own.status = .connectFlags)
    (hsp : own.stringParser = .reset) (calls : List Call) :
    ∃ uuid, (outcome ConnectParser.machine ⟨.indeterminate, calls.length, own⟩ calls).map
        (·.own.packet) = flagsOutcome uuid own.packet (calls.map Call.byte) := by
  rw [machine_eq]
  cases calls with
  | nil => exact ⟨[], rfl⟩
  | cons flags calls =>
    rw [List.map_cons]
    by_cases hreserved : flags.byte &&& 0x01 ≠ 0
    · refine ⟨[], ?_⟩
      rw [BodyParser.outcome_refused (by simp only [switch, hs, if_pos hreserved, fail])]
      simp only [flagsOutcome, if_pos hreserved]
      rfl
    have hflags : (switch flags.uuid ⟨.indeterminate, calls.length, own⟩ flags.byte none).2 =
        ⟨.indeterminate, calls.length, { own with
          packet := setFlags own.packet flags.byte, status := .keepAliveMsb }⟩ := by
      simp only [switch, hs, if_neg hreserved]
    rw [BodyParser.outcome_later hflags]
    rcases calls with _ | ⟨msb, _ | ⟨lsb, calls⟩⟩
    · refine ⟨[], ?_⟩
      simp only [List.map_nil, flagsOutcome, if_neg hreserved]
      rfl
    · refine ⟨[], ?_⟩
      rw [BodyParser.outcome_later (by simp only [switch]; rfl)]
      simp only [flagsOutcome, if_neg hreserved]
      rfl
    · rw [BodyParser.outcome_later (by simp only [switch]; rfl),
        BodyParser.outcome_later (by simp only [switch]; rfl), ← machine_eq]
      simp only [List.map_cons, flagsOutcome, if_neg hreserved]
      refine outcome_clientId _ ?_ ?_ calls
      · rfl
      · exact hsp

/-- **A CONNECT body.** -/
theorem outcome_eq (own : ConnectMembers) (hs : own.status = .protocolName)
    (hsp : own.stringParser = .reset) (calls : List Call) :
    ∃ uuid, (outcome ConnectParser.machine ⟨.indeterminate, calls.length, own⟩ calls).map
        (·.own.packet) = connectOutcome uuid own.packet (calls.map Call.byte) := by
  unfold connectOutcome
  rcases outcome_string (by rw [hs]; trivial) hsp calls with
    ⟨htake, hout⟩ | ⟨sp, sp', call, rest, htake, hparse, hout⟩
  · exact ⟨[], by rw [hout, afterString_none htake]; rfl⟩
  by_cases hname : sp'.string = protocolName
  · have hnext : (switch call.uuid ⟨.indeterminate, rest.length, { own with stringParser := sp }⟩
        call.byte none).2 = ⟨.indeterminate, rest.length, { own with
          status := .protocolLevel, stringParser := .reset }⟩ := by
      simp [switch, hs, readString, hparse, hname]
    rw [hout, outcome_switch hnext]
    simp only [afterString_some htake, hname, ne_eq, not_true_eq_false, if_false]
    cases rest with
    | nil => exact ⟨[], rfl⟩
    | cons level rest =>
      by_cases hlevel : level.byte = 0x04
      · have hlevel' : (switch level.uuid ⟨.indeterminate, rest.length, { own with
            status := .protocolLevel, stringParser := .reset }⟩ level.byte none).2 =
            ⟨.indeterminate, rest.length, { own with
              packet.protocolLevel := level.byte
              status := .connectFlags
              stringParser := .reset }⟩ := by
          simp [switch, hlevel]
        rw [outcome_switch hlevel']
        simp only [List.map_cons, hlevel, not_true_eq_false, if_false]
        exact outcome_connectFlags _ rfl rfl rest
      · refine ⟨[], ?_⟩
        rw [machine_eq, BodyParser.outcome_refused (by simp [switch, hlevel, fail])]
        simp only [List.map_cons, hlevel, not_false_eq_true, if_true]
        rfl
  · refine ⟨[], ?_⟩
    rw [hout, afterString_some htake, if_pos hname, machine_eq, BodyParser.outcome_refused]
    · rfl
    · simp [switch, hs, readString, hparse, hname, fail]

end ConnectParser

end Acatl.Mqtt

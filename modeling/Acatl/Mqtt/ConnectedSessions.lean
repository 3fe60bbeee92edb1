/-
Acatl.Mqtt.ConnectedSessions — connected processors, and the sessions they
asked for.

A CONNECT packet makes its processor connected before the session is asked
for, and it is accepted with a session or without. `Taken` are the CONNECT
packets that get none, since another connection has the session.

  `step_processor`              where the members of a processor come from.
  `connected_hold_session_iff`  connected processors hold their sessions
                                exactly in the runs without such a packet.
-/
import Acatl.Mqtt.SessionExclusivity

namespace Acatl.Mqtt

open Acatl.Lib

/-! ## §1 What is expected -/

/-- The call has returned a CONNACK packet with `ConnectionAccepted`. -/
def BrokerAnswer.Accepts : BrokerAnswer → Prop
  | .processed (.returned _ (some reply)) _ =>
    ∃ ack, reply.body = .connAck ack ∧ ack.connectReturnCode = .connectionAccepted
  | _ => False

namespace Broker

/-- The CONNECT packet `connect` of the processor `p` was accepted in the run. -/
def ConnectedWith (ops : List BrokerOp) (p : ProcessorId) (connect : ConnectControlPacket) : Prop :=
  ∃ front packet typed, front ++ [.packet p packet typed] <+: ops ∧
    packet.body = .connect connect ∧
    (machine (machine.after new front) (.packet p packet typed)).1.Accepts

/-- `p` holds the session that is stored under `clientId`, and it is in use. -/
def HoldsFor (b : Broker) (p : ProcessorId) (clientId : Bytes) : Prop :=
  ∃ s, b.Holds p s ∧ b.manager.sessions clientId = some ⟨s, true⟩

/-- In all of the run, a connected processor holds the session it has connected
for, a call that accepts has obtained one, and no call dereferences a null
session. -/
structure ConnectedHoldSession (ops : List BrokerOp) : Prop where
  holding : ∀ front, front <+: ops → ∀ p proc,
    (machine.after new front).processors p = some proc → proc.status = .connected →
    (∃ connect, ConnectedWith front p connect) ∧
      ∀ connect, ConnectedWith front p connect →
        (machine.after new front).HoldsFor p connect.clientId
  accepting : ∀ front p packet typed, front ++ [.packet p packet typed] <+: ops →
    (machine (machine.after new front) (.packet p packet typed)).1.Accepts →
    ∃ connect, packet.body = .connect connect ∧
      (machine (machine.after new front) (.packet p packet typed)).2.HoldsFor p connect.clientId
  defined : ∀ front op ec, front ++ [op] <+: ops →
    (machine (machine.after new front) op).1 ≠ .processed (.fault .nullSession) ec

/-! ## §2 CONNECT packets -/

/-- The call is the CONNECT packet of a processor that waits for one. -/
structure Connects (b : Broker) (p : ProcessorId) (proc : Processor) (packet : ControlPacket)
    (connect : ConnectControlPacket) : Prop where
  live : b.processors p = some proc
  status : proc.status = .none
  sender : b.senderExpired proc.packetSender = false
  type : packet.header.controlPacketType = .connect
  body : packet.body = .connect connect

/-- The CONNECT packet of a client whose session is in use. -/
def Taken (b : Broker) : BrokerOp → Prop
  | .packet p packet _ => ∃ proc connect, b.Connects p proc packet connect ∧
      ∃ s, b.manager.sessions connect.clientId = some ⟨s, true⟩
  | _ => False

section

variable {b : Broker} {p : ProcessorId} {proc : Processor} {packet : ControlPacket}
  {connect : ConnectControlPacket} {typed : packet.WellTyped}

theorem Connects.step (h : b.Connects p proc packet connect) :
    machine b (.packet p packet typed) =
      (.processed (.returned .keep (some connack))
        (b.manager.getSession connect.clientId proc.packetSender p).2.1,
      (b.doProcessConnect p { proc with status := .connected } connect).broker) := by
  rw [machine_packet h.live]
  simp only [processPacket, h.sender, h.status, h.type, dispatch, h.body,
    doProcessConnect_setProcessor]
  rfl

/-- The processor is connected, with the session it was given. -/
theorem Connects.self (h : b.Connects p proc packet connect) :
    (machine b (.packet p packet typed)).2.processors p = some { proc with
      status := .connected
      currentSession := (b.manager.getSession connect.clientId proc.packetSender p).1 } := by
  rw [h.step]
  exact Function.update_self ..

theorem Connects.holdsFor (h : b.Connects p proc packet connect)
    (hfree : ¬ b.Taken (.packet p packet typed)) :
    (machine b (.packet p packet typed)).2.HoldsFor p connect.clientId := by
  have hnot : ∀ s, b.manager.sessions connect.clientId ≠ some ⟨s, true⟩ := by
    intro s hs
    exact hfree ⟨proc, connect, h, s, hs⟩
  obtain ⟨s, hsession, -, hstored⟩ := SessionManager.getSession_free proc.packetSender p hnot
  refine ⟨s, ⟨_, h.self, hsession⟩, ?_⟩
  rw [h.step]
  exact hstored

/-- The calls that accept are those of CONNECT packets. -/
theorem connects_of_accepts (h : (machine b (.packet p packet typed)).1.Accepts) :
    ∃ proc connect, b.Connects p proc packet connect := by
  have hstep := stepped b (.packet p packet typed)
  generalize (machine b (.packet p packet typed)).1 = answer at h hstep
  generalize (machine b (.packet p packet typed)).2 = b' at hstep
  cases hstep with
  | idle => exact h.elim
  | @processed _ proc _ _ result _ _ hp heffect =>
    cases heffect with
    | unchanged hresult =>
      cases result with
      | fault _ => exact h.elim
      | returned state reply =>
        cases reply with
        | none => exact h.elim
        | some reply =>
          obtain ⟨ack, hbody, -⟩ := h
          have hping : reply.body = .pingResp := hresult
          simp [hping] at hbody
    | published => exact h.elim
    | connected htype hbody hstatus hsender => exact ⟨proc, _, hp, hstatus, hsender, htype, hbody⟩
    | subscribed =>
      cases hs : proc.currentSession with
      | none =>
        simp only [doProcessSubscribe, hs] at h
        exact h.elim
      | some s =>
        rw [doProcessSubscribe_some b hs] at h
        dsimp only at h
        split at h
        · obtain ⟨ack, hbody, -⟩ := h
          simp [suback] at hbody
        · exact h.elim
    | disconnected => exact h.elim

end

/-! ## §3 One step -/

section

variable {b : Broker} {op : BrokerOp}

/-- Where the members of a processor after a step come from. -/
theorem step_processor {q : ProcessorId} {proc' : Processor}
    (hq : (machine b op).2.processors q = some proc') :
    b.processors q = some proc' ∨
    (q = b.nextProcessor ∧ proc'.status = .none) ∨
    (∃ proc packet typed connect, op = .packet q packet typed ∧
      b.Connects q proc packet connect) ∨
    (∃ proc, b.processors q = some proc ∧ proc.status = .connected ∧
      proc'.status = .disconnected) := by
  -- a step writes the members of one processor `p` at most
  have hupdate : ∀ (p : ProcessorId) (x : Option Processor),
      Function.update b.processors p x q = some proc' →
      b.processors q = some proc' ∨ (q = p ∧ x = some proc') := by
    intro p x hx
    by_cases hqp : q = p
    · subst hqp
      rw [Function.update_self] at hx
      exact .inr ⟨rfl, hx⟩
    · rw [Function.update_of_ne hqp] at hx
      exact .inl hx
  have hstep := stepped b op
  generalize (machine b op).1 = answer at hstep
  generalize (machine b op).2 = b' at hq hstep
  cases hstep with
  | accepted =>
    rcases hupdate _ _ hq with hsame | ⟨rfl, hnew⟩
    · exact .inl hsame
    · obtain rfl := Option.some.inj hnew
      exact .inr (.inl ⟨rfl, rfl⟩)
  | @processed p proc packet typed _ _ _ hp heffect =>
    cases heffect with
    | unchanged => exact .inl hq
    | published => exact .inl hq
    | connected htype hbody hstatus hsender =>
      rcases hupdate _ _ hq with hsame | ⟨rfl, -⟩
      · exact .inl hsame
      · exact .inr (.inr (.inl ⟨proc, packet, typed, _, rfl,
          hp, hstatus, hsender, htype, hbody⟩))
    | subscribed =>
      obtain ⟨objects, trees, hframe, -⟩ := b.doProcessSubscribe_frame proc _ _
      rw [hframe] at hq
      exact .inl hq
    | disconnected hstatus =>
      rcases hupdate _ _ hq with hsame | ⟨rfl, hnew⟩
      · exact .inl hsame
      · obtain rfl := Option.some.inj hnew
        exact .inr (.inr (.inr ⟨proc, hp, hstatus, rfl⟩))
  | destroyed =>
    rcases hupdate _ _ hq with hsame | ⟨-, hnew⟩
    · exact .inl hsame
    · cases hnew
  | idle => exact .inl hq
  | expired => exact .inl hq
  | removed => exact .inl hq

/-- Identities are not given out again, and sessions keep their client. -/
theorem step_keeps : b.nextProcessor ≤ (machine b op).2.nextProcessor ∧
    ∀ s, s < b.manager.next →
      ((machine b op).2.manager.objects s).clientId = (b.manager.objects s).clientId := by
  have hstep := stepped b op
  generalize (machine b op).1 = answer at hstep
  generalize (machine b op).2 = b' at hstep ⊢
  cases hstep with
  | accepted => exact ⟨Nat.le_succ _, fun _ _ => rfl⟩
  | @processed p proc packet typed _ _ _ hp heffect =>
    cases heffect with
    | unchanged => exact ⟨le_rfl, fun _ _ => rfl⟩
    | published => exact ⟨le_rfl, fun _ _ => rfl⟩
    | @connected connect =>
      refine ⟨le_rfl, ?_⟩
      intro s hs
      rcases b.manager.getSession_object connect.clientId proc.packetSender p s with
        ⟨sender, hobject⟩ | ⟨hnext, -⟩
      · exact (congrArg Session.clientId hobject :)
      · exact absurd hnext hs.ne
    | subscribed =>
      obtain ⟨objects, trees, hframe, hobjects⟩ := b.doProcessSubscribe_frame proc _ _
      rw [hframe]
      refine ⟨le_rfl, ?_⟩
      intro s _
      obtain ⟨subscriptions, hobject⟩ := hobjects s
      exact (congrArg Session.clientId hobject :)
    | disconnected =>
      refine ⟨le_rfl, ?_⟩
      intro s _
      obtain ⟨sender, hobject⟩ := b.manager.returnSession_object proc.currentSession s
      exact (congrArg Session.clientId hobject :)
  | @destroyed p proc =>
    refine ⟨le_rfl, ?_⟩
    intro s _
    obtain ⟨sender, hobject⟩ := b.manager.returnSession_object proc.currentSession s
    exact (congrArg Session.clientId hobject :)
  | idle => exact ⟨le_rfl, fun _ _ => rfl⟩
  | expired => exact ⟨le_rfl, fun _ _ => rfl⟩
  | @removed clientId =>
    refine ⟨le_rfl, ?_⟩
    intro s _
    show ((b.manager.removeSession clientId none).2.2.objects s).clientId = _
    rw [SessionManager.removeSession_objects]

end

/-! ## §4 Runs without taken CONNECT packets -/

theorem connectedWith_left {front ops : List BrokerOp} {p : ProcessorId}
    {connect : ConnectControlPacket} (hfront : front <+: ops)
    (h : ConnectedWith front p connect) : ConnectedWith ops p connect := by
  obtain ⟨earlier, packet, typed, hearlier, hbody, haccepts⟩ := h
  exact ⟨earlier, packet, typed, hearlier.trans hfront, hbody, haccepts⟩

theorem connectedWith_concat {ops : List BrokerOp} {op : BrokerOp} {p : ProcessorId}
    {connect : ConnectControlPacket} :
    ConnectedWith (ops ++ [op]) p connect ↔ ConnectedWith ops p connect ∨
      ∃ packet typed, op = .packet p packet typed ∧ packet.body = .connect connect ∧
        (machine (machine.after new ops) op).1.Accepts := by
  constructor
  · intro ⟨front, packet, typed, hfront, hbody, haccepts⟩
    rcases List.prefix_concat_iff.mp hfront with heq | hfront
    · obtain ⟨rfl, hop⟩ := List.append_inj' heq rfl
      obtain rfl := List.singleton_inj.mp hop
      exact .inr ⟨packet, typed, rfl, hbody, haccepts⟩
    · exact .inl ⟨front, packet, typed, hfront, hbody, haccepts⟩
  · rintro (h | ⟨packet, typed, rfl, hbody, haccepts⟩)
    · exact connectedWith_left (List.prefix_append ..) h
    · exact ⟨ops, packet, typed, List.prefix_rfl, hbody, haccepts⟩

/-- How the CONNECT packets accepted so far and the processors fit each other. -/
structure History (ops : List BrokerOp) (b : Broker) : Prop where
  accepted : ∀ p connect, ConnectedWith ops p connect → p < b.nextProcessor ∧
    ∀ proc, b.processors p = some proc → proc.status ≠ .none ∧
      (proc.status = .connected → ∃ s, proc.currentSession = some s ∧
        (b.manager.objects s).clientId = connect.clientId)
  connected : ∀ p proc, b.processors p = some proc → proc.status = .connected →
    ∃ connect, ConnectedWith ops p connect

theorem history_new : History [] new := by
  refine ⟨?_, ?_⟩
  · intro p connect ⟨front, packet, typed, hfront, _⟩
    simp at hfront
  · intro p proc hp
    cases hp

theorem history_step (ops : List BrokerOp) (op : BrokerOp) (h : History ops (machine.after new ops))
    (hfree : ¬ (machine.after new ops).Taken op) :
    History (ops ++ [op]) (machine (machine.after new ops) op).2 := by
  have hconsistent := consistent_after ops
  have hconsistent' := hconsistent.step op
  generalize hb : machine.after new ops = b at *
  refine ⟨?_, ?_⟩
  · intro p connect hwith
    rcases connectedWith_concat.mp hwith with hwith | ⟨packet, typed, rfl, hbody, haccepts⟩
    · obtain ⟨hlt, hproc⟩ := h.accepted p connect hwith
      refine ⟨lt_of_lt_of_le hlt step_keeps.1, ?_⟩
      intro proc' hp'
      rcases step_processor hp' with hsame | ⟨hnext, -⟩ | ⟨proc, packet, typed, connect', rfl, hc⟩ |
        ⟨proc, -, -, hstatus⟩
      · obtain ⟨hstatus, hsession⟩ := hproc proc' hsame
        refine ⟨hstatus, ?_⟩
        intro hconn
        obtain ⟨s, hs, hclient⟩ := hsession hconn
        have hlt : s < b.manager.next :=
          (hconsistent.stored _ _ (hconsistent.held p proc' s hsame hs).1).1
        exact ⟨s, hs, (step_keeps.2 s hlt).trans hclient⟩
      · exact absurd hnext hlt.ne
      · exact absurd hc.status (hproc proc hc.live).1
      · simp [hstatus]
    · rw [hb] at haccepts
      obtain ⟨proc, connect', hc⟩ := connects_of_accepts haccepts
      obtain rfl : connect' = connect := by simpa [hc.body] using hbody
      refine ⟨lt_of_lt_of_le (hconsistent.known hc.live) step_keeps.1, ?_⟩
      intro proc' hp'
      obtain ⟨s, ⟨proc'', hp'', hs⟩, hstored⟩ := hc.holdsFor hfree
      obtain rfl : proc'' = proc' := by simpa [hp''] using hp'
      rw [hc.self] at hp''
      obtain rfl := Option.some.inj hp''
      exact ⟨by simp, fun _ => ⟨s, hs, (hconsistent'.stored _ _ hstored).2⟩⟩
  · intro p proc' hp' hstatus
    rcases step_processor hp' with hsame | ⟨-, hnone⟩ | ⟨proc, packet, typed, connect, rfl, hc⟩ |
      ⟨proc, -, -, hdis⟩
    · obtain ⟨connect, hwith⟩ := h.connected p proc' hsame hstatus
      exact ⟨connect, connectedWith_concat.mpr (.inl hwith)⟩
    · simp [hnone] at hstatus
    · refine ⟨connect, connectedWith_concat.mpr (.inr ⟨packet, typed, rfl, hc.body, ?_⟩)⟩
      rw [hb, hc.step]
      exact ⟨{}, rfl, rfl⟩
    · simp [hdis] at hstatus

/-- A connected processor that gets a packet has a session, if the run had no
taken CONNECT packet. -/
theorem holds_of_history {ops : List BrokerOp} (h : History ops (machine.after new ops))
    {p : ProcessorId} {proc : Processor}
    (hp : (machine.after new ops).processors p = some proc) (hstatus : proc.status = .connected) :
    ∃ s, proc.currentSession = some s := by
  obtain ⟨connect, hwith⟩ := h.connected p proc hp hstatus
  obtain ⟨s, hs, -⟩ := ((h.accepted p connect hwith).2 proc hp).2 hstatus
  exact ⟨s, hs⟩

/-- A call of `processPacket` reaches a null session in one way only. -/
theorem nullSession_cases {b : Broker} {op : BrokerOp} {ec : ErrorCode}
    (h : (machine b op).1 = .processed (.fault .nullSession) ec) :
    ∃ p proc, b.processors p = some proc ∧ proc.status = .connected ∧
      proc.currentSession = none := by
  have hstep := stepped b op
  generalize (machine b op).1 = answer at h hstep
  generalize (machine b op).2 = b' at hstep
  cases hstep with
  | @processed p proc packet typed _ _ _ hp heffect =>
    obtain ⟨hresult, -⟩ := BrokerAnswer.processed.inj h
    cases heffect with
    | unchanged hplain =>
      subst hresult
      cases hplain
    | subscribed _ hbody hstatus =>
      cases hs : proc.currentSession with
      | none => exact ⟨p, proc, hp, hstatus, hs⟩
      | some s =>
        rw [doProcessSubscribe_some b hs] at hresult
        dsimp only at hresult
        split at hresult <;> cases hresult
    | published => cases hresult
    | connected => cases hresult
    | disconnected => cases hresult
  | accepted | destroyed | idle | expired | removed => cases h

theorem connectedHoldSession_of_along {ops : List BrokerOp}
    (hops : machine.Along (fun b op => ¬ b.Taken op) new ops) : ConnectedHoldSession ops := by
  have hhistory : ∀ front, front <+: ops → History front (machine.after new front) := by
    intro front hfront
    exact Machine.history_along History history_new history_step (Machine.along_left hfront hops)
  have hfree := Machine.along_iff_steps.mp hops
  refine ⟨?_, ?_, ?_⟩
  · intro front hfront p proc hp hstatus
    refine ⟨(hhistory front hfront).connected p proc hp hstatus, ?_⟩
    intro connect hwith
    obtain ⟨s, hs, hclient⟩ :=
      (((hhistory front hfront).accepted p connect hwith).2 proc hp).2 hstatus
    have hheld := ((consistent_after front).held p proc s hp hs).1
    rw [hclient] at hheld
    exact ⟨s, ⟨proc, hp, hs⟩, hheld⟩
  · intro front p packet typed hfront haccepts
    obtain ⟨proc, connect, hc⟩ := connects_of_accepts haccepts
    exact ⟨connect, hc.body, hc.holdsFor (hfree front _ hfront)⟩
  · intro front op ec hfront hfault
    obtain ⟨p, proc, hp, hstatus, hnone⟩ := nullSession_cases hfault
    have hbefore : front <+: ops := (List.prefix_append ..).trans hfront
    obtain ⟨s, hs⟩ := holds_of_history (hhistory front hbefore) hp hstatus
    simp [hnone] at hs

end Broker

open Broker

/-- **Connected means holding a session** exactly in the runs in which no client
connects while another connection has its session. -/
theorem connected_hold_session_iff (ops : List BrokerOp) :
    ConnectedHoldSession ops ↔ machine.Along (fun b op => ¬ b.Taken op) new ops := by
  refine ⟨?_, connectedHoldSession_of_along⟩
  intro h
  rw [Machine.along_iff_steps]
  intro front op hfront htaken
  cases op with
  | packet p packet typed =>
    obtain ⟨proc, connect, hc, s, hs⟩ := htaken
    have hself : (machine (machine.after new front) (.packet p packet typed)).2.processors p =
        some _ := hc.self
    rw [SessionManager.getSession_inUse hs] at hself
    have hafter : machine.after new (front ++ [.packet p packet typed]) =
        (machine (machine.after new front) (.packet p packet typed)).2 := by
      rw [Machine.after_append]
      rfl
    obtain ⟨⟨connect', hwith⟩, hholds⟩ :=
      h.holding _ hfront p _ (by rw [hafter]; exact hself) rfl
    obtain ⟨t, ⟨proc', hp', ht⟩, -⟩ := hholds connect' hwith
    rw [hafter, hself] at hp'
    obtain rfl := Option.some.inj hp'
    cases ht
  | accept sender => exact htaken
  | destroy p => exact htaken
  | expire sender => exact htaken
  | removeSession clientId => exact htaken

/-- A CONNECT packet of the client "a". -/
def connectA : ControlPacket := ⟨{ controlPacketType := .connect }, .connect { clientId := [0x61] }⟩

/-- A SUBSCRIBE packet for the filter "f". -/
def subscribeF : ControlPacket :=
  ⟨{ controlPacketType := .subscribe, flags := 0x02 },
    .subscribe { packetIdentifier := 1, topicFilters := [⟨[0x66], .atMostOnce⟩] }⟩

/-- The second connection of a client is accepted, although the first one has
its session; its SUBSCRIBE packet then reaches the null pointer. -/
theorem connected_without_session :
    let ops : List BrokerOp := [.accept (some 0), .accept (some 1),
      .packet 0 connectA (by decide), .packet 1 connectA (by decide)]
    machine.outputs new (ops ++ [.packet 1 subscribeF (by decide)]) =
      [.done, .done, .processed (.returned .keep (some connack)) none,
        .processed (.returned .keep (some connack)) (some .sessionInUse),
        .processed (.fault .nullSession) none] ∧
    (machine.after new ops).processors 1 = some ⟨.connected, none, some 1⟩ ∧
    ¬ ConnectedHoldSession ops := by
  intro ops
  have hself : (machine.after new ops).processors 1 = some ⟨.connected, none, some 1⟩ := by decide
  refine ⟨by decide, hself, ?_⟩
  intro h
  obtain ⟨⟨connect, hwith⟩, hholds⟩ := h.holding ops List.prefix_rfl 1 _ hself rfl
  obtain ⟨s, ⟨proc, hp, hs⟩, -⟩ := hholds connect hwith
  rw [hself] at hp
  obtain rfl := Option.some.inj hp
  cases hs

end Acatl.Mqtt

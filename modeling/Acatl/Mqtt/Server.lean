/-
Acatl.Mqtt.Server — the broker of `examples/mqtt_broker` as a whole: any number
of connections, each with its parser and its processor, on one session manager
and one subscription tree.

A connection is its own packet sender, and so the number of its processor is
the number of the sender too. What comes in comes byte by byte, in any order
between the connections (`Acatl.Mqtt.Connection` is about the reads that it
comes in). A call of `processPacket` and the `addSendPacket` with its answer are
two steps: other connections can come in between.

A connection that does not read any more lives as long as something still holds
a pointer to it, a write in flight for instance. When the last pointer goes, the
weak pointers of the sessions expire first, and then the processor is destroyed.

  §1  the server and its steps;
  §2  `stepped`: what a step finds and what it does;
  §3  what a call of `processPacket` leaves of a processor;
  §4  `Served`: the connections that read can be served;
  §5  `after_receive`: a byte that nothing interrupts is that of `handle_read`;
  §6  `broker_after`: every run is a run of the broker;
  §7  `server_refines`, `server_faultless`: what cannot happen in it.
-/
import Acatl.Mqtt.Connection
import Acatl.Mqtt.ConnectedSessions
import Acatl.Mqtt.ParsedPackets
import Acatl.Mqtt.TreeMatching

namespace Acatl.Mqtt

open Acatl.Lib

/-! ## §1 The server -/

/-- What the thread in `handle_read` of a connection does next. -/
inductive ThreadStatus where
  | reading
  -- `processPacket` has returned, and `addSendPacket` comes next
  | replying (reply : ControlPacket) (goesOn : Bool)
  | returned
  | nullPacket
  | faulted (fault : Fault)
  deriving DecidableEq

/-- The thread does not come back to the connection. -/
def ThreadStatus.Ended : ThreadStatus → Prop
  | .reading | .replying .. => False
  | .returned | .nullPacket | .faulted _ => True

instance : DecidablePred ThreadStatus.Ended := fun status => by
  cases status <;> unfold ThreadStatus.Ended <;> infer_instance

/-- The thread goes on reading, after its answer if it has one. -/
def ThreadStatus.Reads : ThreadStatus → Prop
  | .reading | .replying _ true => True
  | _ => False

theorem ThreadStatus.Reads.not_ended {status : ThreadStatus} (h : status.Reads) :
    ¬ status.Ended := by
  cases status with
  | reading | replying => exact not_false
  | returned | nullPacket | faulted => exact h.elim

/-- The connections, by the number of their processor, and what they share.
`enqueued` is what `addSendPacket` was called with. -/
structure Server where
  broker : Broker := .new
  parsers : ProcessorId → MQTTParser := fun _ => .new
  threads : ProcessorId → ThreadStatus := fun _ => .returned
  enqueued : ProcessorId → List ControlPacket := fun _ => []

/-- What can happen. -/
inductive ServerOp where
  | accept
  | receive (p : ProcessorId) (call : Call)
  | addReply (p : ProcessorId)
  -- the handler of `async_read_some` is called with an error
  | readError (p : ProcessorId)
  | expire (p : ProcessorId)
  | destroy (p : ProcessorId)
  | removeSession (clientId : Bytes)
  deriving DecidableEq

namespace Server

def new : Server := {}

def setThread (s : Server) (p : ProcessorId) (status : ThreadStatus) : Server :=
  { s with threads := Function.update s.threads p status }

def setParser (s : Server) (p : ProcessorId) (parser : MQTTParser) : Server :=
  { s with parsers := Function.update s.parsers p parser }

/-- The broker after a call of `processPacket`. What the call has published was
handed to `addSendPacket`. -/
def setBroker (s : Server) (broker : Broker) : Server :=
  { s with
    broker := broker
    enqueued := fun q => s.enqueued q ++ (broker.sent q).drop (s.broker.sent q).length }

/-- Where `handle_read` is after a call of `processPacket`. -/
def next (result : CallResult) (errc : ErrorCode) : ThreadStatus :=
  match result with
  | .fault fault => .faulted fault
  | .returned state reply =>
    let goesOn := errc.isNone && state = .keep
    match reply with
    | some reply => .replying reply goesOn
    | none => if goesOn then .reading else .returned

/-- The operation of the broker, if the packet is of the class in its header. -/
def packetOp (p : ProcessorId) (packet : ControlPacket) : Option BrokerOp :=
  if typed : packet.WellTyped then some (.packet p packet typed) else none

/-- A complete packet, for the processor `proc`. -/
def handlePacket (s : Server) (p : ProcessorId) (proc : Processor) (packet : ControlPacket)
    (errc : ErrorCode) : Option BrokerOp × Server :=
  let r := s.broker.processPacket p proc packet errc
  (packetOp p packet, (s.setBroker r.broker).setThread p (next r.result r.ec))

/-- A byte for a connection that reads. -/
def handleByte (sort : TopicFilters → TopicFilters) (s : Server) (p : ProcessorId) (call : Call) :
    Option (Option BrokerOp × Server) :=
  let r := (s.parsers p).parse sort call none
  if r.ret.isFalse ∨ r.ec.isSome then
    some (none, (s.setParser p r.parser).setThread p .returned)
  else if r.ret.isTrue then
    let (packet, parser) := r.parser.consumePacket
    let s := s.setParser p parser
    match packet, s.broker.processors p with
    | some packet, some proc => some (s.handlePacket p proc packet r.ec)
    | none, _ => some (none, s.setThread p .nullPacket)
    | some _, none => none
  else
    some (none, s.setParser p r.parser)

/-- A step with the operation of the broker in it, unless it cannot be made. -/
def step (sort : TopicFilters → TopicFilters) (s : Server) :
    ServerOp → Option (Option BrokerOp × Server)
  | .accept =>
    let p := s.broker.nextProcessor
    let op := .accept (some p)
    some (some op,
      ({ s with broker := (Broker.machine s.broker op).2 }.setParser p .new).setThread p .reading)
  | .receive p call =>
    match s.threads p with
    | .reading => s.handleByte sort p call
    | _ => none
  | .addReply p =>
    match s.threads p with
    | .replying reply goesOn =>
      some (none, { s with
        enqueued := Function.update s.enqueued p (s.enqueued p ++ [reply]) }.setThread p
          (if goesOn then .reading else .returned))
    | _ => none
  | .readError p =>
    match s.threads p with
    | .reading => some (none, s.setThread p .returned)
    | _ => none
  | .expire p =>
    if p < s.broker.nextProcessor ∧ (s.threads p).Ended ∧ s.broker.expired p = false then
      some (some (.expire p), { s with broker := (Broker.machine s.broker (.expire p)).2 })
    else none
  | .destroy p =>
    if s.broker.expired p = true ∧ (s.broker.processors p).isSome then
      some (some (.destroy p), { s with broker := (Broker.machine s.broker (.destroy p)).2 })
    else none
  | .removeSession clientId =>
    some (some (.removeSession clientId),
      { s with broker := (Broker.machine s.broker (.removeSession clientId)).2 })

/-- The server, step by step. What cannot be done is not done. -/
def machine (sort : TopicFilters → TopicFilters) : Machine Server ServerOp (Option BrokerOp) :=
  fun s op => (s.step sort op).getD (none, s)

/-- The step can be made. -/
def Enabled (sort : TopicFilters → TopicFilters) (s : Server) (op : ServerOp) : Prop :=
  (s.step sort op).isSome = true

instance (sort : TopicFilters → TopicFilters) (s : Server) (op : ServerOp) :
    Decidable (s.Enabled sort op) :=
  inferInstanceAs (Decidable (_ = _))

/-- What the broker was asked to do in a run. -/
def brokerOps (sort : TopicFilters → TopicFilters) (ops : List ServerOp) : List BrokerOp :=
  ((machine sort).outputs new ops).flatMap Option.toList

end Server

/-! ## §2 What a step does -/

namespace Server

/-- What a step finds, and what it does to the broker. -/
inductive Stepped (sort : TopicFilters → TopicFilters) (s : Server) :
    ServerOp → Option BrokerOp → Server → Prop
  | accepted : Stepped sort s .accept (some (.accept (some s.broker.nextProcessor)))
      (({ s with
            broker := (Broker.machine s.broker (.accept (some s.broker.nextProcessor))).2 }.setParser
          s.broker.nextProcessor .new).setThread s.broker.nextProcessor .reading)
  | more {p : ProcessorId} {call : Call} (hp : s.threads p = .reading) :
      Stepped sort s (.receive p call) none
        (s.setParser p ((s.parsers p).parse sort call none).parser)
  | rejected {p : ProcessorId} {call : Call} (hp : s.threads p = .reading) :
      Stepped sort s (.receive p call) none
        ((s.setParser p ((s.parsers p).parse sort call none).parser).setThread p .returned)
  | noPacket {p : ProcessorId} {call : Call} (hp : s.threads p = .reading)
      (hret : ((s.parsers p).parse sort call none).ret = .det true)
      (hpacket : ((s.parsers p).parse sort call none).parser.consumePacket.1 = none) :
      Stepped sort s (.receive p call) none
        ((s.setParser p ((s.parsers p).parse sort call none).parser.consumePacket.2).setThread p
          .nullPacket)
  | processed {p : ProcessorId} {call : Call} {proc : Processor} {packet : ControlPacket}
      (hp : s.threads p = .reading) (hproc : s.broker.processors p = some proc)
      (hret : ((s.parsers p).parse sort call none).ret = .det true)
      (hpacket : ((s.parsers p).parse sort call none).parser.consumePacket.1 = some packet) :
      Stepped sort s (.receive p call) (packetOp p packet)
        ((s.setParser p ((s.parsers p).parse sort call none).parser.consumePacket.2).handlePacket p
          proc packet none).2
  | replied {p : ProcessorId} {reply : ControlPacket} {goesOn : Bool}
      (hp : s.threads p = .replying reply goesOn) :
      Stepped sort s (.addReply p) none ({ s with
        enqueued := Function.update s.enqueued p (s.enqueued p ++ [reply]) }.setThread p
          (if goesOn then .reading else .returned))
  | failed {p : ProcessorId} (hp : s.threads p = .reading) :
      Stepped sort s (.readError p) none (s.setThread p .returned)
  | expired {p : ProcessorId} (hp : p < s.broker.nextProcessor) (hended : (s.threads p).Ended) :
      Stepped sort s (.expire p) (some (.expire p))
        { s with broker := (Broker.machine s.broker (.expire p)).2 }
  | destroyed {p : ProcessorId} (hp : s.broker.expired p = true) :
      Stepped sort s (.destroy p) (some (.destroy p))
        { s with broker := (Broker.machine s.broker (.destroy p)).2 }
  | removed {clientId : Bytes} : Stepped sort s (.removeSession clientId)
      (some (.removeSession clientId))
      { s with broker := (Broker.machine s.broker (.removeSession clientId)).2 }

section

variable {sort : TopicFilters → TopicFilters} {s : Server}

theorem stepped_receive {p : ProcessorId} {call : Call} {op : Option BrokerOp} {s' : Server}
    (hp : s.threads p = .reading) (h : s.handleByte sort p call = some (op, s')) :
    Stepped sort s (.receive p call) op s' := by
  unfold handleByte at h
  dsimp only at h
  split at h
  · obtain ⟨rfl, rfl⟩ := Prod.mk.inj (Option.some.inj h)
    exact .rejected hp
  rename_i hfine
  split at h
  · rename_i htrue
    have hec : ((s.parsers p).parse sort call none).ec = none := by
      simpa using (not_or.mp hfine).2
    have hret : ((s.parsers p).parse sort call none).ret = .det true := by
      simpa [Tribool.isTrue] using htrue
    split at h
    · rename_i packet proc hpacket hproc
      rw [hec] at h
      obtain ⟨rfl, rfl⟩ := Prod.mk.inj (Option.some.inj h)
      exact .processed hp hproc hret hpacket
    · rename_i hpacket
      obtain ⟨rfl, rfl⟩ := Prod.mk.inj (Option.some.inj h)
      exact .noPacket hp hret hpacket
    · cases h
  · obtain ⟨rfl, rfl⟩ := Prod.mk.inj (Option.some.inj h)
    exact .more hp

/-- **What a step finds and what it does.** -/
theorem stepped_of_step {s' : Server} {op : ServerOp} {answer : Option BrokerOp}
    (h : s.step sort op = some (answer, s')) : Stepped sort s op answer s' := by
  cases op with
  | accept =>
    obtain ⟨rfl, rfl⟩ := Prod.mk.inj (Option.some.inj h)
    exact .accepted
  | receive p call =>
    unfold step at h
    dsimp only at h
    split at h
    · rename_i hp
      exact stepped_receive hp h
    · cases h
  | addReply p =>
    unfold step at h
    dsimp only at h
    split at h
    · rename_i hp
      obtain ⟨rfl, rfl⟩ := Prod.mk.inj (Option.some.inj h)
      exact .replied hp
    · cases h
  | readError p =>
    unfold step at h
    dsimp only at h
    split at h
    · rename_i hp
      obtain ⟨rfl, rfl⟩ := Prod.mk.inj (Option.some.inj h)
      exact .failed hp
    · cases h
  | expire p =>
    unfold step at h
    dsimp only at h
    split at h
    · rename_i hp
      obtain ⟨rfl, rfl⟩ := Prod.mk.inj (Option.some.inj h)
      exact .expired hp.1 hp.2.1
    · cases h
  | destroy p =>
    unfold step at h
    dsimp only at h
    split at h
    · rename_i hp
      obtain ⟨rfl, rfl⟩ := Prod.mk.inj (Option.some.inj h)
      exact .destroyed hp.1
    · cases h
  | removeSession clientId =>
    obtain ⟨rfl, rfl⟩ := Prod.mk.inj (Option.some.inj h)
    exact .removed

theorem stepped {op : ServerOp} (h : s.Enabled sort op) :
    Stepped sort s op (machine sort s op).1 (machine sort s op).2 := by
  obtain ⟨r, hr⟩ := Option.isSome_iff_exists.mp h
  have hmachine : machine sort s op = r := by simp [machine, hr]
  rw [hmachine]
  exact stepped_of_step hr

end

end Server

/-! ## §3 Processors that are called -/

/-- The processor of a connection that reads: it waits for a CONNECT packet, or
it holds a session. -/
def Processor.Ready (proc : Processor) : Prop :=
  proc.status = .none ∨ (proc.status = .connected ∧ proc.currentSession.isSome = true)

/-- Without an error there is a session. -/
theorem SessionManager.getSession_isSome {m : SessionManager} {clientId : Bytes}
    {sender : Option SenderId} {handler : ProcessorId}
    (h : (m.getSession clientId sender handler).2.1 = none) :
    (m.getSession clientId sender handler).1.isSome = true := by
  by_cases hused : ∃ s, m.sessions clientId = some ⟨s, true⟩
  · obtain ⟨s, hs⟩ := hused
    rw [getSession_inUse hs] at h
    cases h
  · obtain ⟨s, hs, -⟩ := getSession_free sender handler (not_exists.mp hused)
    rw [hs]
    rfl

namespace Broker

section

variable {b : Broker} {p : ProcessorId} {proc : Processor} {packet : ControlPacket}

/-- A call of `processPacket` writes the members of its own processor only, and
leaves the sender in place. -/
theorem Effect.processors {result : CallResult} {b' : Broker}
    (h : Effect b p proc packet result b') (hp : b.processors p = some proc) :
    b'.nextProcessor = b.nextProcessor ∧ b'.expired = b.expired ∧
      (∀ q, q ≠ p → b'.processors q = b.processors q) ∧
      ∃ proc', b'.processors p = some proc' ∧ proc'.packetSender = proc.packetSender := by
  cases h with
  | unchanged => exact ⟨rfl, rfl, fun _ _ => rfl, proc, hp, rfl⟩
  | published => exact ⟨rfl, rfl, fun _ _ => rfl, proc, hp, rfl⟩
  | connected =>
    exact ⟨rfl, rfl, fun q hq => Function.update_of_ne hq .., _, Function.update_self .., rfl⟩
  | subscribed =>
    obtain ⟨objects, trees, hframe, -⟩ := b.doProcessSubscribe_frame proc _ _
    rw [hframe]
    exact ⟨rfl, rfl, fun _ _ => rfl, proc, hp, rfl⟩
  | disconnected =>
    exact ⟨rfl, rfl, fun q hq => Function.update_of_ne hq .., _, Function.update_self .., rfl⟩

/-- **After a call that lets the connection read on, the processor is ready
again.** -/
theorem ready_after (hp : b.processors p = some proc) (hready : proc.Ready)
    (typed : packet.WellTyped) {reply : Option ControlPacket} {b' : Broker}
    (h : machine b (.packet p packet typed) = (.processed (.returned .keep reply) none, b')) :
    ∃ proc', b'.processors p = some proc' ∧ proc'.Ready := by
  by_cases hconnects : ∃ connect, b.Connects p proc packet connect
  · obtain ⟨connect, hconnects⟩ := hconnects
    have hself : (machine b (.packet p packet typed)).2.processors p = some _ := hconnects.self
    rw [h] at hself
    rw [hconnects.step] at h
    obtain ⟨-, hec⟩ := BrokerAnswer.processed.inj (Prod.mk.inj h).1
    exact ⟨_, hself, .inr ⟨rfl, SessionManager.getSession_isSome hec⟩⟩
  · rw [machine_packet hp] at h
    have heffect := processPacket_effect b p proc typed none
    obtain ⟨hanswer, rfl⟩ := Prod.mk.inj h
    obtain ⟨hresult, -⟩ := BrokerAnswer.processed.inj hanswer
    rw [hresult] at heffect
    generalize (b.processPacket p proc packet none).broker = b' at heffect ⊢
    generalize hret : CallResult.returned .keep reply = result at heffect
    cases heffect with
    | unchanged => exact ⟨proc, hp, hready⟩
    | published => exact ⟨proc, hp, hready⟩
    | connected htype hbody hstatus hsender =>
      exact absurd ⟨_, hp, hstatus, hsender, htype, hbody⟩ hconnects
    | subscribed =>
      obtain ⟨objects, trees, hframe, -⟩ := b.doProcessSubscribe_frame proc _ _
      rw [hframe]
      exact ⟨proc, hp, hready⟩
    | disconnected => cases hret

/-- **The faults that a ready processor can run into.** -/
theorem fault_cases (hready : proc.Ready)
    (typed : packet.WellTyped) {fault : Fault}
    (h : (b.processPacket p proc packet none).result = .fault fault) :
    fault = .nullSessionInTree ∨ (fault = .danglingHandler ∧
      ∃ subs s ec, packet.header.controlPacketType = .subscribe ∧ packet.body = .subscribe subs ∧
        b.senderExpired proc.packetSender = false ∧ proc.currentSession = some s ∧
        (b.doProcessSubscribe proc subs ec).result = .fault .danglingHandler) := by
  have heffect := processPacket_effect b p proc typed none
  rw [h] at heffect
  generalize (b.processPacket p proc packet none).broker = b' at heffect
  generalize hret : CallResult.fault fault = result at heffect
  cases heffect with
  | unchanged hresult =>
    subst hret
    exact .inl hresult
  | published => cases hret
  | connected => cases hret
  | disconnected => cases hret
  | @subscribed subs ec htype hbody hstatus hsender =>
    obtain ⟨s, hs⟩ : ∃ s, proc.currentSession = some s := by
      rcases hready with hnone | ⟨-, hsome⟩
      · simp [hstatus] at hnone
      · exact Option.isSome_iff_exists.mp hsome
    have hresult := congrArg Processed.result (doProcessSubscribe_some b hs subs ec)
    rw [← hret] at hresult
    dsimp only at hresult
    split at hresult
    · cases hresult
    · obtain rfl := CallResult.fault.inj hresult
      exact .inr ⟨rfl, subs, s, ec, htype, hbody, hsender, hs, hret.symm⟩

end

end Broker

/-! ## §4 The invariant -/

namespace Server

/-- The connections that read can be served, and what the others came to. -/
structure Served (s : Server) : Prop where
  consistent : s.broker.Consistent
  sound : ∀ p, (s.parsers p).Sound
  checked : ∀ p, (s.parsers p).Checked
  fresh : ∀ p, s.broker.nextProcessor ≤ p → s.threads p = .returned ∧ s.broker.expired p = false
  live : ∀ p, ¬ (s.threads p).Ended → s.broker.expired p = false ∧
    ∃ proc, s.broker.processors p = some proc ∧ proc.packetSender = some p
  ready : ∀ p proc, (s.threads p).Reads → s.broker.processors p = some proc → proc.Ready
  notNull : ∀ p, s.threads p ≠ .nullPacket
  faults : ∀ p fault, s.threads p = .faulted fault →
    fault = .danglingHandler ∨ fault = .nullSessionInTree

theorem served_new : new.Served where
  consistent := Broker.consistent_new
  sound _ := MQTTParser.sound_new
  checked _ := MQTTParser.checked_new
  fresh _ _ := ⟨rfl, rfl⟩
  live p h := absurd trivial h
  ready p proc h := h.elim
  notNull p := by simp [new]
  faults p fault h := by simp [new] at h

section

variable {s : Server} {p : ProcessorId}

@[simp] theorem broker_setThread (status : ThreadStatus) :
    (s.setThread p status).broker = s.broker := rfl
@[simp] theorem parsers_setThread (status : ThreadStatus) :
    (s.setThread p status).parsers = s.parsers := rfl
@[simp] theorem broker_setParser (parser : MQTTParser) :
    (s.setParser p parser).broker = s.broker := rfl
@[simp] theorem threads_setParser (parser : MQTTParser) :
    (s.setParser p parser).threads = s.threads := rfl

theorem threads_setThread (status : ThreadStatus) (q : ProcessorId) :
    (s.setThread p status).threads q = if q = p then status else s.threads q :=
  Function.update_apply ..

theorem parsers_setParser (parser : MQTTParser) (q : ProcessorId) :
    (s.setParser p parser).parsers q = if q = p then parser else s.parsers q :=
  Function.update_apply ..

/-- Another parser for a connection. -/
theorem Served.setParser (h : s.Served) {parser : MQTTParser} (hsound : parser.Sound)
    (hchecked : parser.Checked) : (s.setParser p parser).Served where
  consistent := h.consistent
  sound q := by
    rw [parsers_setParser]
    split
    · exact hsound
    · exact h.sound q
  checked q := by
    rw [parsers_setParser]
    split
    · exact hchecked
    · exact h.checked q
  fresh := h.fresh
  live := h.live
  ready := h.ready
  notNull := h.notNull
  faults := h.faults

/-- A thread of a connection goes on: it may read only if it was ready to. -/
theorem Served.setThread (h : s.Served) {status : ThreadStatus} (hp : ¬ (s.threads p).Ended)
    (hreads : status.Reads → (s.threads p).Reads)
    (hnull : status ≠ .nullPacket)
    (hfault : ∀ fault, status = .faulted fault →
      fault = .danglingHandler ∨ fault = .nullSessionInTree) : (s.setThread p status).Served where
  consistent := h.consistent
  sound := h.sound
  checked := h.checked
  fresh q hq := by
    obtain ⟨hreturned, hexpired⟩ := h.fresh q hq
    have hqp : q ≠ p := by
      rintro rfl
      exact hp (hreturned ▸ trivial)
    rw [threads_setThread, if_neg hqp]
    exact ⟨hreturned, hexpired⟩
  live q hq := by
    by_cases hqp : q = p
    · subst hqp
      exact h.live q hp
    · rw [threads_setThread, if_neg hqp] at hq
      exact h.live q hq
  ready q proc hq hproc := by
    rw [threads_setThread] at hq
    split at hq
    · rename_i hqp
      subst hqp
      exact h.ready q proc (hreads hq) hproc
    · exact h.ready q proc hq hproc
  notNull q := by
    rw [threads_setThread]
    split
    · exact hnull
    · exact h.notNull q
  faults q fault hq := by
    rw [threads_setThread] at hq
    split at hq
    · exact hfault fault hq
    · exact h.faults q fault hq

theorem packetOp_eq {packet : ControlPacket} (typed : packet.WellTyped) :
    packetOp p packet = some (.packet p packet typed) := dif_pos typed

/-- What the thread does next, if the call has no fault. -/
theorem next_reads {result : CallResult} {errc : ErrorCode} (h : (next result errc).Reads) :
    ∃ reply, result = .returned .keep reply ∧ errc = none := by
  cases result with
  | fault f => exact h.elim
  | returned state reply =>
    cases errc <;> cases state <;> cases reply <;>
      simp [next, ThreadStatus.Reads] at h ⊢

theorem next_notNull (result : CallResult) (errc : ErrorCode) : next result errc ≠ .nullPacket := by
  cases result with
  | fault f => simp [next]
  | returned state reply =>
    cases reply with
    | some reply => simp [next]
    | none =>
      simp only [next]
      split <;> simp

theorem next_faulted {result : CallResult} {errc : ErrorCode} {fault : Fault} :
    next result errc = .faulted fault ↔ result = .fault fault := by
  cases result with
  | fault f => simp [next]
  | returned state reply =>
    cases reply with
    | some reply => simp [next]
    | none =>
      simp only [next, reduceCtorEq, iff_false]
      split <;> simp

/-- A packet that a connection has read. -/
theorem Served.handlePacket (h : s.Served) (hp : s.threads p = .reading) {proc : Processor}
    (hproc : s.broker.processors p = some proc) {packet : ControlPacket}
    (hpacket : packet.WellFormed) : (s.handlePacket p proc packet none).2.Served := by
  have typed := hpacket.wellTyped
  have hready := h.ready p proc (by rw [hp]; trivial) hproc
  have hmachine := @Broker.machine_packet _ _ _ packet typed hproc
  have hconsistent := h.consistent.step (.packet p packet typed)
  obtain ⟨hnext, hexpired, hother, proc', hproc', hsender⟩ :=
    (Broker.processPacket_effect s.broker p proc typed none).processors hproc
  rw [hmachine] at hconsistent
  have hown := h.live p (by rw [hp]; exact not_false)
  have hlt := h.consistent.known hproc
  unfold Server.handlePacket
  generalize hr : s.broker.processPacket p proc packet none = r at *
  dsimp only at *
  refine ⟨hconsistent, h.sound, h.checked, ?_, ?_, ?_, ?_, ?_⟩
  · intro q hq
    have hqp : q ≠ p := by
      rintro rfl
      exact absurd (hnext ▸ hq) (Nat.not_le.mpr hlt)
    rw [threads_setThread, if_neg hqp]
    obtain ⟨hreturned, hq⟩ := h.fresh q (hnext ▸ hq)
    exact ⟨hreturned, (congrFun hexpired q).trans hq⟩
  · intro q hq
    refine ⟨(congrFun hexpired q).trans ?_, ?_⟩
    · by_cases hqp : q = p
      · exact hqp ▸ hown.1
      · rw [threads_setThread, if_neg hqp] at hq
        exact (h.live q hq).1
    · by_cases hqp : q = p
      · subst hqp
        obtain ⟨-, proc₀, hproc₀, hsender₀⟩ := hown
        obtain rfl : proc₀ = proc := by simpa [hproc] using hproc₀.symm
        exact ⟨proc', hproc', hsender.trans hsender₀⟩
      · rw [threads_setThread, if_neg hqp] at hq
        obtain ⟨-, qroc, hqroc, hqsender⟩ := h.live q hq
        exact ⟨qroc, (hother q hqp).trans hqroc, hqsender⟩
  · intro q qroc hq hqroc
    rw [threads_setThread] at hq
    split at hq
    · rename_i hqp
      subst hqp
      obtain ⟨reply, hresult, hec⟩ := next_reads hq
      rw [hresult, hec] at hmachine
      obtain ⟨proc'', hproc'', hready''⟩ := Broker.ready_after hproc hready typed hmachine
      obtain rfl : proc'' = qroc := Option.some.inj (hproc''.symm.trans hqroc)
      exact hready''
    · rename_i hqp
      exact h.ready q qroc hq ((hother q hqp).symm.trans hqroc)
  · intro q
    rw [threads_setThread]
    split
    · exact next_notNull _ _
    · exact h.notNull q
  · intro q fault hq
    rw [threads_setThread] at hq
    split at hq
    · rw [next_faulted, ← hr] at hq
      rcases Broker.fault_cases hready typed hq with hnull | ⟨hdangling, -⟩
      · exact .inr hnull
      · exact .inl hdangling
    · exact h.faults q fault hq

/-- **Every step keeps it.** -/
theorem Served.step {sort : TopicFilters → TopicFilters}
    (hsort : ∀ filters, sort filters ⊆ filters) (h : s.Served) {op : ServerOp}
    (hop : s.Enabled sort op) : (machine sort s op).2.Served := by
  have hstep := stepped hop
  generalize (machine sort s op).1 = answer at hstep
  generalize (machine sort s op).2 = s' at hstep ⊢
  cases hstep with
  | accepted =>
    obtain ⟨-, hexpired⟩ := h.fresh _ le_rfl
    have hprocessors : ∀ q, (Broker.machine s.broker
        (.accept (some s.broker.nextProcessor))).2.processors q =
        if q = s.broker.nextProcessor then some { packetSender := some s.broker.nextProcessor }
        else s.broker.processors q := fun q => Function.update_apply ..
    refine ⟨h.consistent.step _, ?_, ?_, ?_, ?_, ?_, ?_, ?_⟩
    · intro q
      rw [parsers_setThread, parsers_setParser]
      split
      · exact MQTTParser.sound_new
      · exact h.sound q
    · intro q
      rw [parsers_setThread, parsers_setParser]
      split
      · exact MQTTParser.checked_new
      · exact h.checked q
    · intro q hq
      have hlt : s.broker.nextProcessor < q := hq
      rw [threads_setThread, if_neg hlt.ne']
      exact h.fresh q hlt.le
    · intro q hq
      rw [threads_setThread] at hq
      by_cases hqp : q = s.broker.nextProcessor
      · subst hqp
        exact ⟨hexpired, _, (hprocessors _).trans (if_pos rfl), rfl⟩
      · rw [if_neg hqp] at hq
        obtain ⟨hlive, proc, hproc, hsender⟩ := h.live q hq
        exact ⟨hlive, proc, (hprocessors q).trans ((if_neg hqp).trans hproc), hsender⟩
    · intro q proc hq hproc
      rw [threads_setThread] at hq
      have hproc := (hprocessors q).symm.trans hproc
      by_cases hqp : q = s.broker.nextProcessor
      · rw [if_pos hqp] at hproc
        rw [← Option.some.inj hproc]
        exact .inl rfl
      · rw [if_neg hqp] at hq hproc
        exact h.ready q proc hq hproc
    · intro q
      rw [threads_setThread]
      split
      · simp
      · exact h.notNull q
    · intro q fault hq
      rw [threads_setThread] at hq
      split at hq
      · cases hq
      · exact h.faults q fault hq
  | @more p call hp =>
    exact h.setParser ((h.sound p).parse sort call).1 ((h.checked p).parse hsort call none)
  | @rejected p call hp =>
    have hset := h.setParser (p := p) ((h.sound p).parse sort call).1
      ((h.checked p).parse hsort call none)
    have hended : ¬ (s.threads p).Ended := by
      rw [hp]
      exact not_false
    exact hset.setThread hended (fun hreads => hreads.elim) (by simp) (by simp)
  | @noPacket p call hp hret hpacket =>
    obtain ⟨packet, hsome, -⟩ := (h.checked p).consumed hsort hret
    rw [hsome] at hpacket
    cases hpacket
  | @processed p call proc packet hp hproc hret hpacket =>
    obtain ⟨packet', hsome, hwell⟩ := (h.checked p).consumed hsort hret
    obtain rfl : packet' = packet := Option.some.inj (hsome.symm.trans hpacket)
    have hparsed := (h.checked p).parse hsort call none
    have hset := h.setParser (p := p) (.of_status (.inl rfl)) hparsed.consumePacket
    exact hset.handlePacket hp hproc hwell
  | @replied p reply goesOn hp =>
    have hset : ({ s with enqueued := Function.update s.enqueued p (s.enqueued p ++ [reply]) } :
        Server).Served := ⟨h.consistent, h.sound, h.checked, h.fresh, h.live, h.ready, h.notNull,
      h.faults⟩
    have hended : ¬ (s.threads p).Ended := by
      rw [hp]
      exact not_false
    refine hset.setThread hended ?_ ?_ ?_
    · intro hreads
      cases goesOn with
      | true =>
        rw [hp]
        trivial
      | false => exact hreads.elim
    · cases goesOn <;> simp
    · cases goesOn <;> simp
  | @failed p hp =>
    have hended : ¬ (s.threads p).Ended := by
      rw [hp]
      exact not_false
    exact h.setThread hended (fun hreads => hreads.elim) (by simp) (by simp)
  | @expired p hp hended =>
    refine ⟨h.consistent.step _, h.sound, h.checked, ?_, ?_, h.ready, h.notNull, h.faults⟩
    · intro q hq
      obtain ⟨hthread, hlive⟩ := h.fresh q hq
      have hqp : q ≠ p := by
        rintro rfl
        exact absurd hq (Nat.not_le.mpr hp)
      exact ⟨hthread, (Function.update_of_ne hqp ..).trans hlive⟩
    · intro q hq
      have hqp : q ≠ p := by
        rintro rfl
        exact hq hended
      obtain ⟨hlive, hproc⟩ := h.live q hq
      exact ⟨(Function.update_of_ne hqp ..).trans hlive, hproc⟩
  | @destroyed p hp =>
    cases hproc : s.broker.processors p with
    | none =>
      rw [Broker.machine_destroy_none hproc]
      exact h
    | some proc =>
      have hconsistent := h.consistent.step (.destroy p)
      rw [Broker.machine_destroy hproc] at hconsistent ⊢
      have hother : ∀ q, (s.broker.destroy p proc).processors q =
          if q = p then none else s.broker.processors q := fun q => Function.update_apply ..
      refine ⟨hconsistent, h.sound, h.checked, h.fresh, ?_, ?_, h.notNull, h.faults⟩
      · intro q hq
        obtain ⟨hlive, hqroc⟩ := h.live q hq
        have hqp : q ≠ p := by
          rintro rfl
          rw [hlive] at hp
          cases hp
        rw [hother, if_neg hqp]
        exact ⟨hlive, hqroc⟩
      · intro q qroc hq hqroc
        have hqroc := (hother q).symm.trans hqroc
        split at hqroc
        · cases hqroc
        · exact h.ready q qroc hq hqroc
  | removed =>
    exact ⟨h.consistent.step _, h.sound, h.checked, h.fresh, h.live, h.ready, h.notNull, h.faults⟩

end

variable {sort : TopicFilters → TopicFilters}

theorem served_after (hsort : ∀ filters, sort filters ⊆ filters) {ops : List ServerOp}
    (hops : (machine sort).Along (Enabled sort) new ops) :
    ((machine sort).after new ops).Served :=
  Machine.inv_along Served (fun _ _ h hop => h.step hsort hop) served_new hops

/-! ## §5 A byte and its answer -/

/-- What the connection `p` calls, on the server. -/
def surroundings (p : ProcessorId) : Surroundings Server where
  processPacket s packet errc :=
    match s.broker.processors p with
    | none => (.returned .close none, errc, s)
    | some proc =>
      let r := s.broker.processPacket p proc packet errc
      (r.result, r.ec, s.setBroker r.broker)
  addSendPacket s packet :=
    { s with enqueued := Function.update s.enqueued p (s.enqueued p ++ [packet]) }

/-- Where the thread of a connection is between two bytes. -/
def threadOf : ReadStatus → ThreadStatus
  | .reading => .reading
  | .returned => .returned
  | .nullPacket => .nullPacket
  | .faulted fault => .faulted fault

/-- A connection after a byte, as a part of the server. -/
def setReader (p : ProcessorId) (c : Reader Server) : Server :=
  (c.shared.setParser p c.mqttParser).setThread p (threadOf c.status)

theorem addReply_stopped {s : Server} {p : ProcessorId}
    (h : ∀ reply goesOn, s.threads p ≠ .replying reply goesOn) :
    (machine sort s (.addReply p)).2 = s := by
  unfold machine step
  dsimp only
  split
  · exact absurd ‹_› (h _ _)
  · rfl

theorem addReply_replying {s : Server} {p : ProcessorId} {reply : ControlPacket} {goesOn : Bool}
    (h : s.threads p = .replying reply goesOn) :
    (machine sort s (.addReply p)).2 =
      ((surroundings p).addSendPacket s reply).setThread p
        (if goesOn then .reading else .returned) := by
  simp [machine, step, h, surroundings]

theorem setThread_self {s : Server} {p : ProcessorId} {status : ThreadStatus}
    (h : s.threads p = status) : s.setThread p status = s := by
  rw [← h, setThread, Function.update_eq_self]

/-- The answer is enqueued whatever the thread has been doing. -/
theorem setThread_addSendPacket (s : Server) (p : ProcessorId) (status status' : ThreadStatus)
    (reply : ControlPacket) :
    ((surroundings p).addSendPacket (s.setThread p status) reply).setThread p status' =
      ((surroundings p).addSendPacket s reply).setThread p status' := by
  simp [surroundings, setThread]

/-- **A byte that nothing interrupts**, and the answer to it, are what
`handle_read` does at the byte. -/
theorem after_receive {s : Server} (h : s.Served) {p : ProcessorId} (hp : s.threads p = .reading)
    (call : Call) : (machine sort).after s [.receive p call, .addReply p] =
      setReader p (Reader.handleByte sort (surroundings p)
        { mqttParser := s.parsers p, shared := s } call).2 := by
  have hreceive : ∀ {r : Option BrokerOp × Server}, s.handleByte sort p call = some r →
      (machine sort s (.receive p call)).2 = r.2 := by
    intro r hr
    simp [machine, step, hp, hr]
  have hself : ∀ (t : Server) (status : ThreadStatus), (t.setThread p status).threads p = status :=
    fun t status => Function.update_self ..
  rw [Reader.handleByte_reading rfl, Machine.after_cons, Machine.after_cons, Machine.after_nil]
  unfold Reader.handleResult
  dsimp only
  by_cases hbad : ((s.parsers p).parse sort call none).ret.isFalse = true ∨
      ((s.parsers p).parse sort call none).ec.isSome = true
  · rw [hreceive (by unfold handleByte; rw [if_pos hbad]), if_pos hbad]
    rw [addReply_stopped (by simp [hself])]
    rfl
  rw [if_neg hbad]
  by_cases htrue : ((s.parsers p).parse sort call none).ret.isTrue = true
  · rw [if_pos htrue]
    unfold Reader.handlePacket
    dsimp only
    cases hpacket : ((s.parsers p).parse sort call none).parser.consumePacket.1 with
    | none =>
      rw [hreceive (by unfold handleByte; simp [hbad, htrue, hpacket]; rfl)]
      rw [addReply_stopped (by simp [hself])]
      rfl
    | some packet =>
      obtain ⟨-, proc, hproc, -⟩ := h.live p (by rw [hp]; exact not_false)
      rw [hreceive (by unfold handleByte; simp [hbad, htrue, hpacket, hproc]; rfl)]
      simp only [surroundings, hproc, handlePacket]
      dsimp only [broker_setParser]
      have hec : ((s.parsers p).parse sort call none).ec = none := by
        simpa using (not_or.mp hbad).2
      rw [hec]
      generalize s.broker.processPacket p proc packet none = r
      obtain ⟨result, ec, broker⟩ := r
      dsimp only
      cases result with
      | fault fault =>
        rw [addReply_stopped (by simp [hself, next])]
        rfl
      | returned state reply =>
        cases reply with
        | none =>
          cases ec <;> cases state
          all_goals
            rw [addReply_stopped (by simp [hself, next])]
            rfl
        | some reply =>
          have hreplying := hself ((s.setParser p
            ((s.parsers p).parse sort call none).parser.consumePacket.2).setBroker broker)
            (.replying reply (ec.isNone && state = .keep))
          rw [show next (.returned state (some reply)) ec =
            .replying reply (ec.isNone && state = .keep) from rfl, addReply_replying hreplying,
            setThread_addSendPacket]
          cases ec <;> cases state <;> rfl
  · rw [hreceive (by unfold handleByte; rw [if_neg hbad, if_neg htrue]), if_neg htrue]
    rw [addReply_stopped (by simp [hp])]
    exact (setThread_self (s := s.setParser p _) hp).symm

/-! ## §6 Every run is a run of the broker -/

/-- What a step does to the broker is what its answer says. -/
theorem broker_step (hsort : ∀ filters, sort filters ⊆ filters) {s : Server} (h : s.Served)
    {op : ServerOp} (hop : s.Enabled sort op) :
    Broker.machine.after s.broker (machine sort s op).1.toList = (machine sort s op).2.broker := by
  have hstep := stepped hop
  generalize (machine sort s op).1 = answer at hstep ⊢
  generalize (machine sort s op).2 = s' at hstep ⊢
  cases hstep with
  | @processed p call proc packet hp hproc hret hpacket =>
    obtain ⟨packet', hsome, hwell⟩ := (h.checked p).consumed hsort hret
    obtain rfl : packet' = packet := Option.some.inj (hsome.symm.trans hpacket)
    rw [packetOp_eq hwell.wellTyped]
    exact congrArg Prod.snd (@Broker.machine_packet _ _ _ packet' hwell.wellTyped hproc)
  | accepted | more | rejected | noPacket | replied | failed | expired | destroyed | removed => rfl

/-- **Every run of the server is a run of the broker**, whatever bytes come in. -/
theorem broker_after (hsort : ∀ filters, sort filters ⊆ filters) {ops : List ServerOp}
    (hops : (machine sort).Along (Enabled sort) new ops) :
    ((machine sort).after new ops).broker = Broker.machine.after .new (brokerOps sort ops) := by
  have hrun : Broker.machine.Along (fun _ _ => True) new.broker (brokerOps sort ops) ∧
      Broker.machine.after new.broker (brokerOps sort ops) =
        ((machine sort).after new ops).broker :=
    Machine.drives_along broker Option.toList Served (fun _ _ h hop => h.step hsort hop)
      (fun _ _ h hop => ⟨Machine.along_iff_steps.mpr fun _ _ _ => trivial,
        broker_step hsort h hop⟩) served_new hops
  exact hrun.2.symm

end Server

/-! ## §7 Runs without faults -/

namespace Broker

/-- The session of a SUBSCRIBE packet was made by the processor that the packet
is for, or has all of its filters already. -/
def HasHandler (b : Broker) : BrokerOp → Prop
  | .packet p packet _ => packet.header.controlPacketType = .subscribe →
    ∀ proc ∈ b.processors p, ∀ s ∈ proc.currentSession,
      (b.manager.objects s).subscriptionHandler = p ∨
        (b.processors (b.manager.objects s).subscriptionHandler).isSome = true ∧
          findDifference packet.filters (b.manager.objects s).subscriptions = []
  | _ => True

instance (b : Broker) : ∀ op, Decidable (b.HasHandler op)
  | .packet p _ _ => inferInstanceAs (Decidable (_ → ∀ proc ∈ b.processors p,
      ∀ s ∈ proc.currentSession, _ ∨ _ ∧ _))
  | .accept _ | .destroy _ | .expire _ | .removeSession _ => inferInstanceAs (Decidable True)

section

variable {b : Broker} {p : ProcessorId} {proc : Processor} {packet : ControlPacket}

theorem HasHandler.handlerFits (hpacket : packet.WellFormed)
    (h : b.HasHandler (.packet p packet hpacket.wellTyped)) :
    b.HandlerFits (.packet p packet hpacket.wellTyped) :=
  fun htype proc hproc _ s hs => ⟨hpacket.filters, h htype proc hproc s hs⟩

/-- A call finds a null session in the tree in one way only. -/
theorem nullSessionInTree_cases
    (h : (b.processPacket p proc packet none).result = .fault .nullSessionInTree) :
    ∃ publish, packet.body = .publish publish ∧
      none ∈ b.trees.getCurrentSubscriptionTree.sessionsFor publish.topicName := by
  have hdispatch : (b.dispatch p proc packet none).result = .fault .nullSessionInTree := by
    unfold processPacket at h
    split at h
    · cases h
    · split at h
      · split at h
        · cases h
        · exact h
      · split at h
        · cases h
        · exact h
      · cases h
  unfold dispatch at hdispatch
  cases htype : packet.header.controlPacketType <;> simp only [htype] at hdispatch
  case publish =>
    split at hdispatch
    · rename_i publish hbody
      refine ⟨publish, hbody, ?_⟩
      unfold doProcessPublish at hdispatch
      dsimp only at hdispatch
      split at hdispatch
      · split at hdispatch
        · assumption
        · cases hdispatch
      · cases hdispatch
    · cases hdispatch
  case subscribe =>
    split at hdispatch
    · unfold doProcessSubscribe at hdispatch
      split at hdispatch
      · cases hdispatch
      · split at hdispatch <;> cases hdispatch
    · cases hdispatch
  case connect | pingreq | disconnect => split at hdispatch <;> cases hdispatch
  all_goals cases hdispatch

/-- **A ready processor runs into no fault**, if what the sessions remember is in
the tree and the session of a SUBSCRIBE packet has the right handler. -/
theorem no_fault (hregistered : b.Registered) (hp : b.processors p = some proc)
    (hready : proc.Ready) (hpacket : packet.WellFormed)
    (hhandler : b.HasHandler (.packet p packet hpacket.wellTyped)) (fault : Fault) :
    (b.processPacket p proc packet none).result ≠ .fault fault := by
  intro h
  rcases fault_cases hready hpacket.wellTyped h with
    rfl | ⟨rfl, subs, s, ec, htype, hbody, hsender, hs, hresult⟩
  · obtain ⟨publish, hbody, hnone⟩ := nullSessionInTree_cases h
    have hvalid : publish.topicName.Valid := hpacket.topic _ (by simp [ControlPacket.topic?, hbody])
    rw [sessionsFor_eq_walk] at hnone
    obtain ⟨path, hstored, -⟩ := walk_visits _ _ hregistered.rooted.shaped
      hregistered.rooted.inner hvalid.plain hnone
    exact hregistered.noNull path hstored
  · have hfilters : packet.filters = subs.topicFilters := by simp [ControlPacket.filters, hbody]
    have hvalid := hpacket.filters
    have hfits := hhandler htype proc hp s hs
    rw [hfilters] at hvalid hfits
    have hadded : (b.addSubscriptions s subs.topicFilters).1 = true := by
      rcases hfits with hself | ⟨hlive, hnil⟩
      · exact (hregistered.addSubscriptions (hself ▸ hp) hvalid (.inl hs)).1
      · obtain ⟨handler, hlive⟩ := Option.isSome_iff_exists.mp hlive
        exact (hregistered.addSubscriptions hlive hvalid (.inr hnil)).1
    rw [doProcessSubscribe_some b hs] at hresult
    simp [hadded] at hresult

end

end Broker

namespace Server

variable {sort : TopicFilters → TopicFilters}

/-- What a step does to the broker fits the handlers of the sessions. -/
def HandlerFits (sort : TopicFilters → TopicFilters) (s : Server) (op : ServerOp) : Prop :=
  match (machine sort s op).1 with
  | none => True
  | some op => s.broker.HasHandler op

instance (s : Server) (op : ServerOp) : Decidable (s.HandlerFits sort op) := by
  unfold HandlerFits
  split <;> infer_instance

/-- A server without a fault, on a tree that holds what was subscribed to. -/
structure Faultless (s : Server) : Prop where
  served : s.Served
  registered : s.broker.Registered
  noFault : ∀ p fault, s.threads p ≠ .faulted fault

theorem faultless_new : new.Faultless :=
  ⟨served_new, Broker.registered_new, fun p fault h => by simp [new] at h⟩

theorem Faultless.step (hsort : ∀ filters, sort filters ⊆ filters) {s : Server} (h : s.Faultless)
    {op : ServerOp} (hop : s.Enabled sort op) (hfits : s.HandlerFits sort op) :
    (machine sort s op).2.Faultless := by
  have hserved := h.served.step hsort hop
  have hbroker := broker_step hsort h.served hop
  have hstep := stepped hop
  unfold HandlerFits at hfits
  generalize (machine sort s op).1 = answer at hstep hfits hbroker
  generalize (machine sort s op).2 = s' at hstep hserved hbroker ⊢
  -- a step that is no call of `processPacket`
  have hother : ∀ {p : ProcessorId} {status : ThreadStatus},
      (∀ fault, status ≠ .faulted fault) →
      ∀ q fault, (s.setThread p status).threads q ≠ .faulted fault := by
    intro p status hstatus q fault
    rw [threads_setThread]
    split
    · exact hstatus fault
    · exact h.noFault q fault
  cases hstep with
  | accepted => exact ⟨hserved, h.registered.step _ trivial, hother (by simp)⟩
  | more => exact ⟨hserved, h.registered, h.noFault⟩
  | rejected => exact ⟨hserved, h.registered, hother (by simp)⟩
  | noPacket => exact ⟨hserved, h.registered, hother (by simp)⟩
  | @processed p call proc packet hp hproc hret hpacket =>
    obtain ⟨packet', hsome, hwell⟩ := (h.served.checked p).consumed hsort hret
    obtain rfl : packet' = packet := Option.some.inj (hsome.symm.trans hpacket)
    rw [packetOp_eq hwell.wellTyped] at hbroker hfits
    have hready := h.served.ready p proc (by rw [hp]; trivial) hproc
    refine ⟨hserved, ?_, hother ?_⟩
    · have hbroker : (Broker.machine s.broker (.packet p packet' hwell.wellTyped)).2 = _ := hbroker
      rw [← hbroker]
      exact h.registered.step _ (Broker.HasHandler.handlerFits hwell hfits)
    · intro fault hfault
      rw [next_faulted] at hfault
      exact Broker.no_fault h.registered hproc hready hwell hfits fault hfault
  | @replied p reply goesOn => exact ⟨hserved, h.registered, hother (by cases goesOn <;> simp)⟩
  | failed => exact ⟨hserved, h.registered, hother (by simp)⟩
  | expired => exact ⟨hserved, h.registered.step _ trivial, h.noFault⟩
  | destroyed => exact ⟨hserved, h.registered.step _ trivial, h.noFault⟩
  | removed => exact ⟨hserved, h.registered.step _ trivial, h.noFault⟩

end Server

open Server

/-- **Whatever bytes come in from whatever connections, the server does what
the broker does**, a connection takes no null packet, it runs into no fault but
two, and it holds a session while it is connected and reads. -/
theorem server_refines (sort : TopicFilters → TopicFilters)
    (hsort : ∀ filters, sort filters ⊆ filters) (ops : List ServerOp)
    (hops : (machine sort).Along (Enabled sort) new ops) :
    let s := (machine sort).after new ops
    s.broker = Broker.machine.after .new (brokerOps sort ops) ∧
    (∀ p, s.threads p ≠ .nullPacket ∧ ∀ fault, s.threads p = .faulted fault →
      fault = .danglingHandler ∨ fault = .nullSessionInTree) ∧
    (∀ p, s.threads p = .reading → ∃ proc, s.broker.processors p = some proc ∧
      (proc.status = .none ∨ (proc.status = .connected ∧ proc.currentSession.isSome = true))) := by
  have hserved := served_after hsort hops
  refine ⟨broker_after hsort hops, fun p => ⟨hserved.notNull p, hserved.faults p⟩, ?_⟩
  intro p hp
  obtain ⟨-, proc, hproc, -⟩ := hserved.live p (by rw [hp]; exact not_false)
  exact ⟨proc, hproc, hserved.ready p proc (by rw [hp]; trivial) hproc⟩

/-- The bytes of a packet, for a connection. -/
def receiveAll (p : ProcessorId) (bytes : Bytes) : List ServerOp :=
  (callsFor bytes).map (.receive p)

/-- A client connects as "a", subscribes to "f" and publishes there, and then
the connection breaks. -/
def oneClient : List ServerOp :=
  .accept :: receiveAll 0 [0x10, 13, 0, 4, 0x4D, 0x51, 0x54, 0x54, 4, 2, 0, 60, 0, 1, 0x61] ++
    .addReply 0 :: receiveAll 0 [0x82, 6, 0, 1, 0, 1, 0x66, 0] ++
    .addReply 0 :: receiveAll 0 [0x30, 4, 0, 1, 0x66, 0x78] ++
    [.readError 0, .expire 0, .destroy 0]

theorem server_refines_oneClient :
    let s := (machine id).after new oneClient
    s.broker = Broker.machine.after .new (brokerOps id oneClient) ∧
    (∀ p, s.threads p ≠ .nullPacket ∧ ∀ fault, s.threads p = .faulted fault →
      fault = .danglingHandler ∨ fault = .nullSessionInTree) ∧
    (∀ p, s.threads p = .reading → ∃ proc, s.broker.processors p = some proc ∧
      (proc.status = .none ∨ (proc.status = .connected ∧ proc.currentSession.isSome = true))) :=
  server_refines id (fun _ => List.Subset.refl _) oneClient (by decide +kernel)

/-- **No call faults**, in the runs in which the session of every SUBSCRIBE
packet has the right handler. -/
theorem server_faultless (sort : TopicFilters → TopicFilters)
    (hsort : ∀ filters, sort filters ⊆ filters) (ops : List ServerOp)
    (hops : (machine sort).Along (fun s op => s.Enabled sort op ∧ s.HandlerFits sort op) new ops)
    (p : ProcessorId) (fault : Fault) :
    ((machine sort).after new ops).threads p ≠ .faulted fault := by
  have hfaultless : ((machine sort).after new ops).Faultless :=
    Machine.inv_along Faultless (fun _ _ h hop => h.step hsort hop.1 hop.2) faultless_new hops
  exact hfaultless.noFault p fault

theorem server_faultless_oneClient :
    ((machine id).after new oneClient).threads 0 ≠ .faulted .danglingHandler :=
  server_faultless id (fun _ => List.Subset.refl _) oneClient (by decide +kernel) 0 .danglingHandler

end Acatl.Mqtt

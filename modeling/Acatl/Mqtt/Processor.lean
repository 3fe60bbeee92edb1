/-
Acatl.Mqtt.Processor — `mqtt_processor.h` and
`mqtt_subscription_tree_manager.h`: what a connection does with the packets it
receives, on the sessions and the subscription tree that all connections share.

`Broker` is everything the connections share, with the connections themselves.
Its operations (`BrokerOp`) are calls of `processPacket` and of
`removeSession`, and the beginning and end of the objects involved. A call of
`processPacket` uses at most one operation of the session manager, and apart
from that and from the subscriptions it works on the members of its own
`Processor`; so the interleavings of calls are the interleavings of the
operations.

The places where the source would dereference a null pointer or a destroyed
object are results of their own (`Fault`).
-/
import Acatl.Mqtt.Parser
import Acatl.Mqtt.Sessions
import Acatl.Mqtt.SubscriptionTree
import Acatl.Lib.Machine
import Mathlib.Data.Finset.Card
import Mathlib.Data.Finset.Filter

namespace Acatl.Mqtt

open Acatl.Lib

/-! ## SubscriptionTreeManager -/

/-- `SubscriptionTreeManager`. -/
structure SubscriptionTreeManager where
  tree : SubscriptionTree SessionPtr := .new

namespace SubscriptionTreeManager

/-- `getWritableTree`: a copy of the tree, under `_writeMutex`. -/
def getWritableTree (m : SubscriptionTreeManager) : SubscriptionTree SessionPtr := m.tree.clone

/-- `setTree`, as `~WritableTree` calls it with `_writeMutex` locked. -/
def setTree (_m : SubscriptionTreeManager) (tree : SubscriptionTree SessionPtr) :
    SubscriptionTreeManager := ⟨tree⟩

/-- `getCurrentSubscriptionTree`. -/
def getCurrentSubscriptionTree (m : SubscriptionTreeManager) : SubscriptionTree SessionPtr := m.tree

end SubscriptionTreeManager

/-! ## The state -/

/-- `Processor::Status`. -/
inductive Processor.Status where
  | none
  | connected
  | disconnected
  deriving DecidableEq

/-- `Processor`, without the references to the two managers. -/
structure Processor where
  status : Processor.Status := .none
  currentSession : SessionPtr := none
  packetSender : Option SenderId
  deriving DecidableEq

/-- What all connections share, and the connections: `processors` are those
that are not destroyed, `expired` tells which senders are, and `sent` is what
each sender was given by `addSendPacket`. -/
structure Broker where
  processors : ProcessorId → Option Processor := fun _ => none
  nextProcessor : ProcessorId := 0
  manager : SessionManager := {}
  trees : SubscriptionTreeManager := {}
  expired : SenderId → Bool := fun _ => false
  sent : SenderId → List ControlPacket := fun _ => []

/-- Undefined behaviour, and the exception of a failed `dynamic_cast`. -/
inductive Fault where
  | nullSession
  | nullSessionInTree
  | danglingHandler
  | badCast
  deriving DecidableEq

/-- How a call of `processPacket` ends. -/
inductive CallResult where
  | returned (state : ConnectionState) (packet : Option ControlPacket)
  | fault (fault : Fault)
  deriving DecidableEq

/-- The result of a call, the error code and the broker afterwards. -/
structure Processed where
  result : CallResult
  ec : ErrorCode
  broker : Broker

namespace Broker

/-- The members of a processor after a call. -/
def setProcessor (b : Broker) (p : ProcessorId) (proc : Processor) : Broker :=
  { b with processors := Function.update b.processors p (some proc) }

/-- `_packetSender.expired()`. -/
def senderExpired (b : Broker) (sender : Option SenderId) : Bool :=
  match sender with
  | none => true
  | some sender => b.expired sender

/-- `Session::currentSender`. -/
def currentSender (b : Broker) (session : SessionId) : Option SenderId :=
  if b.senderExpired (b.manager.objects session).sender then none
  else (b.manager.objects session).sender

end Broker

/-! ## Processor -/

/-- `Processor::addSubscriptions`. -/
def Processor.addSubscriptions (proc : Processor) (b : Broker) (subscriptions : TopicFilters) :
    Broker :=
  let writableTree := b.trees.getWritableTree
  let tree := subscriptions.foldl
    (fun tree filter => (tree.addFilter filter proc.currentSession none).2.2) writableTree
  { b with trees := b.trees.setTree tree }

namespace Broker

/-- `Session::addSubscriptions`: `false` if its handler is destroyed. -/
def addSubscriptions (b : Broker) (session : SessionId) (subscriptions : TopicFilters) :
    Bool × Broker :=
  let (result, object) := (b.manager.objects session).addSubscriptions subscriptions
  let b := { b with manager.objects := Function.update b.manager.objects session object }
  match b.processors object.subscriptionHandler with
  | none => (false, b)
  | some handler => (true, handler.addSubscriptions b result)

/-- The CONNACK packet that every CONNECT is answered with. -/
def connack : ControlPacket := ⟨{ controlPacketType := .connack }, .connAck {}⟩

/-- The SUBACK packet for a SUBSCRIBE packet. -/
def suback (subs : SubscribeControlPacket) : ControlPacket :=
  ⟨{ controlPacketType := .suback },
    .subAck ⟨subs.packetIdentifier, subs.topicFilters.map TopicFilter.qos⟩⟩

/-- `doProcess(const ConnectControlPacket&)`. -/
def doProcessConnect (b : Broker) (p : ProcessorId) (proc : Processor)
    (connect : ConnectControlPacket) : Processed :=
  let (session, ec, manager) := b.manager.getSession connect.clientId proc.packetSender p
  ⟨.returned .keep (some connack), ec,
    { b with manager := manager }.setProcessor p { proc with currentSession := session }⟩

/-- `doProcess(const PublishControlPacket&)`. The sessions found are visited
in the order of their addresses, so a null session comes first. -/
def doProcessPublish (b : Broker) (packet : ControlPacket) (pub : PublishControlPacket)
    (ec : ErrorCode) : Processed :=
  let (found, sessions) := b.trees.getCurrentSubscriptionTree.matchTopic pub.topicName ∅
  if found then
    if none ∈ sessions then
      ⟨.fault .nullSessionInTree, ec, b⟩
    else
      let copies (sender : SenderId) : Nat :=
        (sessions.filter fun session => session.bind b.currentSender = some sender).card
      ⟨.returned .keep none, ec,
        { b with sent := fun sender => b.sent sender ++ List.replicate (copies sender) packet }⟩
  else
    ⟨.returned .keep none, ec, b⟩

/-- `doProcess(const SubscribeControlPacket&)`. -/
def doProcessSubscribe (b : Broker) (proc : Processor) (subs : SubscribeControlPacket)
    (ec : ErrorCode) : Processed :=
  match proc.currentSession with
  | none => ⟨.fault .nullSession, ec, b⟩
  | some session =>
    match b.addSubscriptions session subs.topicFilters with
    | (false, b) => ⟨.fault .danglingHandler, ec, b⟩
    | (true, b) => ⟨.returned .keep (some (suback subs)), ec, b⟩

/-- `doProcess(const PingReqControlPacket&)`. -/
def doProcessPingReq (b : Broker) (ec : ErrorCode) : Processed :=
  ⟨.returned .keep (some ⟨{ controlPacketType := .pingresp }, .pingResp⟩), ec, b⟩

/-- `doProcess(const DisconnectControlPacket&)`. -/
def doProcessDisconnect (b : Broker) (p : ProcessorId) (proc : Processor) (ec : ErrorCode) :
    Processed :=
  let (_, _, manager) := b.manager.returnSession proc.currentSession
  ⟨.returned .close none, ec,
    { b with manager := manager }.setProcessor p { proc with currentSession := none }⟩

/-- The second switch of `processPacket`, over the packet type. -/
def dispatch (b : Broker) (p : ProcessorId) (proc : Processor) (packet : ControlPacket)
    (ec : ErrorCode) : Processed :=
  match packet.header.controlPacketType with
  | .connack | .pingresp | .suback | .unsuback =>
    ⟨.returned .close none, some .controlPacketNotAllowed, b⟩
  | .connect =>
    let proc := { proc with status := .connected }
    let b := b.setProcessor p proc
    match packet.body with
    | .connect connect => b.doProcessConnect p proc connect
    | _ => ⟨.fault .badCast, ec, b⟩
  | .pingreq =>
    match packet.body with
    | .pingReq => b.doProcessPingReq ec
    | _ => ⟨.fault .badCast, ec, b⟩
  | .disconnect =>
    let proc := { proc with status := .disconnected }
    let b := b.setProcessor p proc
    match packet.body with
    | .disconnect => b.doProcessDisconnect p proc ec
    | _ => ⟨.fault .badCast, ec, b⟩
  | .subscribe =>
    match packet.body with
    | .subscribe subs => b.doProcessSubscribe proc subs ec
    | _ => ⟨.fault .badCast, ec, b⟩
  | .publish =>
    match packet.body with
    | .publish pub => b.doProcessPublish packet pub ec
    | _ => ⟨.fault .badCast, ec, b⟩
  | .puback | .pubrec | .pubcomp | .pubrel | .unsubscribe =>
    ⟨.returned .close none, some .featureNotImplemented, b⟩
  | .none | .reserved => ⟨.returned .close none, some .invalidControlPacketType, b⟩

/-- `Processor::processPacket` of the processor `p`, whose members are `proc`. -/
def processPacket (b : Broker) (p : ProcessorId) (proc : Processor) (packet : ControlPacket)
    (ec : ErrorCode) : Processed :=
  if b.senderExpired proc.packetSender then
    ⟨.returned .close none, some .noPacketSender, b⟩
  else
    match proc.status with
    | .none =>
      if packet.header.controlPacketType ≠ .connect then
        ⟨.returned .close none, some .notConnected, b⟩
      else
        b.dispatch p proc packet ec
    | .connected =>
      if packet.header.controlPacketType = .connect then
        ⟨.returned .close none, some .duplicateConnectProtocolViolation, b⟩
      else
        b.dispatch p proc packet ec
    | .disconnected => ⟨.returned .close none, some .notConnected, b⟩

/-- `Processor::~Processor`. -/
def destroy (b : Broker) (p : ProcessorId) (proc : Processor) : Broker :=
  let (_, _, manager) := b.manager.returnSession proc.currentSession
  { b with manager := manager, processors := Function.update b.processors p none }

end Broker

/-! ## What SUBSCRIBE changes -/

namespace Broker

theorem addSubscriptions_frame (b : Broker) (session : SessionId) (subscriptions : TopicFilters) :
    (b.addSubscriptions session subscriptions).2 = { b with
      manager.objects := Function.update b.manager.objects session
        ((b.manager.objects session).addSubscriptions subscriptions).2
      trees := (b.addSubscriptions session subscriptions).2.trees } := by
  unfold addSubscriptions
  dsimp only
  split <;> rfl

/-- The handler of the session writes the tree. -/
theorem addSubscriptions_live {b : Broker} {session : SessionId} {handler : Processor}
    (h : b.processors (b.manager.objects session).subscriptionHandler = some handler)
    (subscriptions : TopicFilters) :
    b.addSubscriptions session subscriptions = (true, { b with
      manager.objects := Function.update b.manager.objects session
        ((b.manager.objects session).addSubscriptions subscriptions).2
      trees := (handler.addSubscriptions b
        (findDifference subscriptions (b.manager.objects session).subscriptions)).trees }) := by
  unfold addSubscriptions
  dsimp only [Session.addSubscriptions]
  rw [h]
  rfl

theorem doProcessSubscribe_some (b : Broker) {proc : Processor} {s : SessionId}
    (hs : proc.currentSession = some s) (subs : SubscribeControlPacket) (ec : ErrorCode) :
    b.doProcessSubscribe proc subs ec =
      ⟨if (b.addSubscriptions s subs.topicFilters).1 then .returned .keep (some (suback subs))
        else .fault .danglingHandler, ec, (b.addSubscriptions s subs.topicFilters).2⟩ := by
  unfold doProcessSubscribe
  rw [hs]
  dsimp only
  split <;> rename_i h <;> simp [h]

/-- A SUBSCRIBE packet changes the subscriptions of sessions and the tree only. -/
theorem doProcessSubscribe_frame (b : Broker) (proc : Processor) (subs : SubscribeControlPacket)
    (ec : ErrorCode) : ∃ objects trees,
    (b.doProcessSubscribe proc subs ec).broker =
      { b with manager.objects := objects, trees := trees } ∧
    ∀ t, ∃ subscriptions,
      objects t = { b.manager.objects t with subscriptions := subscriptions } := by
  cases hs : proc.currentSession with
  | none =>
    refine ⟨b.manager.objects, b.trees, ?_, fun t => ⟨_, rfl⟩⟩
    simp [doProcessSubscribe, hs]
  | some s =>
    rw [doProcessSubscribe_some b hs]
    refine ⟨_, _, addSubscriptions_frame b s _, ?_⟩
    intro t
    by_cases hts : t = s
    · subst hts
      exact ⟨_, Function.update_self ..⟩
    · exact ⟨_, Function.update_of_ne hts ..⟩

end Broker

/-! ## Runs -/

/-- The class of a packet object, as its constructor writes it into the header. -/
def PacketBody.controlPacketType : PacketBody → ControlPacketType
  | .connect _ => .connect
  | .connAck _ => .connack
  | .publish _ => .publish
  | .subscribe _ => .subscribe
  | .subAck _ => .suback
  | .pingReq => .pingreq
  | .pingResp => .pingresp
  | .disconnect => .disconnect

/-- A packet whose header names a class is of that class. The parser makes only
such packets (`MQTTParser.finish`, `MQTTParser.dispatch`). -/
def ControlPacket.WellTyped (packet : ControlPacket) : Prop :=
  MQTTParser.Handled packet.header.controlPacketType →
    packet.body.controlPacketType = packet.header.controlPacketType

instance (packet : ControlPacket) : Decidable packet.WellTyped :=
  inferInstanceAs (Decidable (_ → _))

/-- What can happen to a broker: a new connection with its sender, a call of
`processPacket`, the end of a `Processor` or of a sender, and `removeSession`.
A connection sets its packet sender once, before it reads anything. -/
inductive BrokerOp where
  | accept (sender : Option SenderId)
  | packet (p : ProcessorId) (packet : ControlPacket) (typed : packet.WellTyped)
  | destroy (p : ProcessorId)
  | expire (sender : SenderId)
  | removeSession (clientId : Bytes)

/-- What an operation answers. -/
inductive BrokerAnswer where
  | done
  | processed (result : CallResult) (ec : ErrorCode)
  | removed (result : Bool) (ec : ErrorCode)
  deriving DecidableEq

namespace Broker

/-- A broker without connections. -/
def new : Broker := {}

/-- The broker under its operations. Calls of a `Processor` that does not
exist do nothing. -/
def machine : Machine Broker BrokerOp BrokerAnswer
  | b, .accept sender =>
    (.done, { b.setProcessor b.nextProcessor { packetSender := sender } with
      nextProcessor := b.nextProcessor + 1 })
  | b, .packet p packet _ =>
    match b.processors p with
    | none => (.done, b)
    | some proc =>
      let r := b.processPacket p proc packet none
      (.processed r.result r.ec, r.broker)
  | b, .destroy p =>
    match b.processors p with
    | none => (.done, b)
    | some proc => (.done, b.destroy p proc)
  | b, .expire sender => (.done, { b with expired := Function.update b.expired sender true })
  | b, .removeSession clientId =>
    let (result, ec, manager) := b.manager.removeSession clientId none
    (.removed result ec, { b with manager := manager })

section

variable {b : Broker} {p : ProcessorId} {proc : Processor} {packet : ControlPacket}
  {typed : packet.WellTyped}

theorem machine_packet (h : b.processors p = some proc) :
    machine b (.packet p packet typed) =
      (.processed (b.processPacket p proc packet none).result
        (b.processPacket p proc packet none).ec, (b.processPacket p proc packet none).broker) := by
  simp [machine, h]

theorem machine_packet_none (h : b.processors p = none) :
    machine b (.packet p packet typed) = (.done, b) := by
  simp [machine, h]

theorem machine_destroy (h : b.processors p = some proc) :
    machine b (.destroy p) = (.done, b.destroy p proc) := by
  simp [machine, h]

theorem machine_destroy_none (h : b.processors p = none) :
    machine b (.destroy p) = (.done, b) := by
  simp [machine, h]

end

end Broker

end Acatl.Mqtt

/-
Acatl.Mqtt.BrokerService — the broker hands on what is published.

What the session manager, the processors and the tree are there for is a
publish/subscribe service between clients: `service` reads one off a broker, and
`serviceOp` what an operation asks of it. A client is a client identifier, and a
receiver is the packet sender of a connection.

The service is kept by the runs in which every SUBSCRIBE packet has the right
handler, no two of the filters cross, and every connection is its own packet
sender, as it is in `Connection::start`.

  §1  the service that a broker keeps;
  §2  `Serving`: what holds between two operations;
  §3  what `match` finds, and who is sent a PUBLISH packet;
  §4  `service_step`: an operation does what it asks of the service;
  §5  `broker_serves`: so does every run.
-/
import Acatl.Lib.PubSub
import Acatl.Mqtt.MatchResult
import Acatl.Mqtt.ParsedPackets

namespace Acatl.Mqtt

open Acatl.Lib

/-! ## §1 The service -/

abbrev ServiceOp := PubSub.Op Bytes TopicFilter SenderId TopicName ControlPacket

/-- `SubscriptionTree::match` finds the filter for the topic. -/
def FitsTopic (f : TopicFilter) (t : TopicName) : Prop := Fits f.levels t.levels

/-- The filters that an operation subscribes to. -/
def BrokerOp.filters : BrokerOp → TopicFilters
  | .packet _ received _ => received.filters
  | .accept _ | .destroy _ | .expire _ | .removeSession _ => []

theorem Crossing.mono {fs gs : TopicFilters} (h : Crossing fs) (hfs : fs ⊆ gs) : Crossing gs := by
  obtain ⟨f, u, a, c, v, hat⟩ := h
  obtain ⟨g, hg, w, hw⟩ := hat.other
  exact ⟨f, u, a, c, v, { hat with mem := hfs hat.mem, other := ⟨g, hfs hg, w, hw⟩ }⟩

/-- Filters without `"+"` do not cross. -/
theorem not_crossing_of_plain {fs : TopicFilters} (h : ∀ f ∈ fs, plusLevel ∉ f.levels) :
    ¬ Crossing fs := by
  rintro ⟨f, u, a, c, v, hat⟩
  refine h f hat.mem ?_
  rw [hat.levels]
  simp

/-- Filters that are added one after the other. -/
theorem Grown.addFilters {σ : Type} [DecidableEq σ] {subs : List (TopicFilter × σ)}
    {tree : SubscriptionTree σ} (h : Grown subs tree.rootNode) (hbuilt : tree.Built)
    {fs : TopicFilters} (hvalid : ∀ f ∈ fs, f.Valid) (x : σ) :
    let tree' := fs.foldl (fun tree f => (tree.addFilter f x none).2.2) tree
    tree'.Built ∧ Grown (subs ++ fs.map (·, x)) tree'.rootNode := by
  induction fs generalizing subs tree with
  | nil => exact ⟨hbuilt, by simpa using h⟩
  | cons f fs ih =>
    have hf : f.Valid := hvalid f (by simp)
    have hadd := SubscriptionTree.addFilter_eq_addLevels h.shaped h.inner hf x none
    have hnext : Grown (subs ++ [(f, x)]) (tree.addFilter f x none).2.2.rootNode := by
      rw [hadd]
      exact h.addLevels hf x
    simpa using ih hnext (hbuilt.addFilter hf x none) fun g hg => hvalid g (by simp [hg])

namespace Broker

/-- The session that is stored for a client. -/
def storedFor (b : Broker) (clientId : Bytes) : Option SessionId :=
  (b.manager.sessions clientId).map SessionWrapper.session

/-- The filters of this session. -/
def subscriptionsOf (b : Broker) (clientId : Bytes) : Set TopicFilter :=
  {f | ∃ s, b.storedFor clientId = some s ∧ f ∈ (b.manager.objects s).subscriptions}

/-- The client whose session a connection holds, unless the connection is gone. -/
def clientOf (b : Broker) (p : ProcessorId) : Option Bytes :=
  if b.expired p then none
  else (b.processors p).bind fun proc =>
    proc.currentSession.map fun s => (b.manager.objects s).clientId

/-- The service that a broker keeps. -/
def service (b : Broker) : PubSub.Service Bytes TopicFilter SenderId ControlPacket :=
  ⟨b.subscriptionsOf, b.clientOf, b.sent⟩

/-- What a packet asks of the service. -/
def packetServiceOp (b : Broker) (p : ProcessorId) (proc : Processor) (packet : ControlPacket) :
    Option ServiceOp :=
  if b.senderExpired proc.packetSender then none
  else
    match proc.status, packet.header.controlPacketType, packet.body with
    | .none, .connect, .connect connect =>
      (b.manager.getSession connect.clientId proc.packetSender p).1.map
        fun _ => .attach p connect.clientId
    | .connected, .subscribe, .subscribe subs => some (.subscribe p {f | f ∈ subs.topicFilters})
    | .connected, .publish, .publish pub => some (.publish pub.topicName packet)
    | .connected, .disconnect, .disconnect => some (.detach p)
    | _, _, _ => none

/-- What an operation asks of the service. -/
def serviceOp (b : Broker) : BrokerOp → Option ServiceOp
  | .accept _ => none
  | .packet p packet _ => (b.processors p).bind fun proc => b.packetServiceOp p proc packet
  | .destroy p => some (.detach p)
  | .expire sender => some (.detach sender)
  | .removeSession clientId =>
    if (b.manager.removeSession clientId none).1 then some (.forget clientId) else none

/-- What a run asks of the service. -/
def serviceOps (ops : List BrokerOp) : List ServiceOp :=
  ((machine.seenAs serviceOp).outputs new ops).flatMap Option.toList

section

variable {b : Broker} {p : ProcessorId} {proc : Processor} {packet : ControlPacket}

theorem clientOf_iff {c : Bytes} : b.clientOf p = some c ↔
    b.expired p = false ∧ ∃ s, b.Holds p s ∧ (b.manager.objects s).clientId = c := by
  unfold clientOf Holds
  cases b.expired p with
  | true => simp
  | false =>
    cases b.processors p with
    | none => simp
    | some proc => simp

theorem mem_subscriptionsOf {c : Bytes} {f : TopicFilter} : f ∈ b.subscriptionsOf c ↔
    ∃ s, b.storedFor c = some s ∧ f ∈ (b.manager.objects s).subscriptions :=
  Iff.rfl

/-- A PUBLISH packet changes what was sent only: copies of it are added. -/
theorem doProcessPublish_frame (b : Broker) (packet : ControlPacket) (pub : PublishControlPacket)
    (ec : ErrorCode) : ∃ copies : SenderId → Nat, (b.doProcessPublish packet pub ec).broker =
      { b with sent := fun q => b.sent q ++ List.replicate (copies q) packet } := by
  have hnone : ∃ copies : SenderId → Nat,
      b = { b with sent := fun q => b.sent q ++ List.replicate (copies q) packet } :=
    ⟨fun _ => 0, by simp⟩
  unfold doProcessPublish
  dsimp only
  split
  · split
    · exact hnone
    · exact ⟨_, rfl⟩
  · exact hnone

/-- What a call of `processPacket` asks of the service, and what it does. -/
inductive Asked (b : Broker) (p : ProcessorId) (proc : Processor) (packet : ControlPacket) :
    Option ServiceOp → Broker → Prop
  | nothing : Asked b p proc packet none b
  -- the session of the client is in use
  | refused (hstatus : proc.status = .none) :
      Asked b p proc packet none
        (b.setProcessor p { proc with status := .connected, currentSession := none })
  | attached {connect : ConnectControlPacket} {s : SessionId} (hstatus : proc.status = .none)
      (hsender : b.senderExpired proc.packetSender = false)
      (hs : (b.manager.getSession connect.clientId proc.packetSender p).1 = some s) :
      Asked b p proc packet (some (.attach p connect.clientId))
        (({ b with manager := (b.manager.getSession connect.clientId proc.packetSender
          p).2.2 } : Broker).setProcessor p
            { proc with status := .connected, currentSession := some s })
  | subscribed {subs : SubscribeControlPacket} {ec : ErrorCode}
      (htype : packet.header.controlPacketType = .subscribe)
      (hbody : packet.body = .subscribe subs)
      (hsender : b.senderExpired proc.packetSender = false) :
      Asked b p proc packet (some (.subscribe p {f | f ∈ subs.topicFilters}))
        (b.doProcessSubscribe proc subs ec).broker
  | published {pub : PublishControlPacket} {ec : ErrorCode}
      (htype : packet.header.controlPacketType = .publish) (hbody : packet.body = .publish pub) :
      Asked b p proc packet (some (.publish pub.topicName packet))
        (b.doProcessPublish packet pub ec).broker
  | disconnected : Asked b p proc packet (some (.detach p))
        (b.doProcessDisconnect p { proc with status := .disconnected } none).broker

theorem doProcessConnect_asked (hstatus : proc.status = .none)
    (hsender : b.senderExpired proc.packetSender = false) (connect : ConnectControlPacket) :
    Asked b p proc packet
      ((b.manager.getSession connect.clientId proc.packetSender p).1.map
        fun _ => .attach p connect.clientId)
      (b.doProcessConnect p { proc with status := .connected } connect).broker := by
  unfold doProcessConnect
  dsimp only
  cases hs : (b.manager.getSession connect.clientId proc.packetSender p).1 with
  | none =>
    have hinUse : ∃ s, b.manager.sessions connect.clientId = some ⟨s, true⟩ := by
      by_contra hfree
      obtain ⟨s, hlent, -⟩ := SessionManager.getSession_free proc.packetSender p
        (not_exists.mp hfree)
      simp [hlent] at hs
    obtain ⟨s, hinUse⟩ := hinUse
    rw [SessionManager.getSession_inUse hinUse]
    exact .refused hstatus
  | some s => exact .attached hstatus hsender hs

/-- **What a call of `processPacket` asks of the service, and what it does.** -/
theorem processPacket_asked (typed : packet.WellTyped) (ec : ErrorCode) :
    Asked b p proc packet (b.packetServiceOp p proc packet)
      (b.processPacket p proc packet ec).broker := by
  unfold ControlPacket.WellTyped at typed
  unfold processPacket packetServiceOp
  split
  · exact .nothing
  rename_i hsender
  have hsender : b.senderExpired proc.packetSender = false := by simpa using hsender
  cases hstatus : proc.status with
  | disconnected => exact .nothing
  | none =>
    dsimp only
    by_cases htype : packet.header.controlPacketType = .connect
    · rw [if_neg (not_not.mpr htype)]
      cases hbody : packet.body <;>
        simp [htype, hbody, MQTTParser.Handled, PacketBody.controlPacketType] at typed
      unfold dispatch
      simp only [htype, hbody, doProcessConnect_setProcessor]
      exact doProcessConnect_asked hstatus hsender _
    · rw [if_pos htype]
      cases ht : packet.header.controlPacketType <;>
        first | exact absurd ht htype | exact .nothing
  | connected =>
    dsimp only
    by_cases htype : packet.header.controlPacketType = .connect
    · rw [if_pos htype, htype]
      exact .nothing
    · rw [if_neg htype]
      unfold dispatch
      cases ht : packet.header.controlPacketType with
      | connect => exact absurd ht htype
      | connack | pingresp | suback | unsuback | puback | pubrec | pubcomp | pubrel | unsubscribe
      | none | reserved => exact .nothing
      | pingreq =>
        cases hbody : packet.body <;>
          simp [ht, hbody, MQTTParser.Handled, PacketBody.controlPacketType] at typed
        exact .nothing
      | disconnect =>
        cases hbody : packet.body <;>
          simp [ht, hbody, MQTTParser.Handled, PacketBody.controlPacketType] at typed
        dsimp only
        rw [doProcessDisconnect_setProcessor]
        exact .disconnected
      | subscribe =>
        cases hbody : packet.body <;>
          simp [ht, hbody, MQTTParser.Handled, PacketBody.controlPacketType] at typed
        exact .subscribed ht hbody hsender
      | publish =>
        cases hbody : packet.body <;>
          simp [ht, hbody, MQTTParser.Handled, PacketBody.controlPacketType] at typed
        exact .published ht hbody

end

/-! ## §2 Between two operations -/

/-- The packet sender of each connection is the connection, and that of a
session is the one that holds it. -/
structure Linked (b : Broker) : Prop where
  own : ∀ p proc, b.processors p = some proc → proc.packetSender = some p
  lentTo : ∀ s p, (b.manager.objects s).sender = some p → b.Holds p s

/-- The tree was built by `addFilter` calls for filters of sessions, all of them
among `filters`. -/
structure Stored (filters : TopicFilters) (b : Broker) : Prop where
  built : b.trees.tree.Built
  grown : ∃ subs : List (TopicFilter × SessionPtr), Grown subs b.trees.tree.rootNode ∧
    ∀ f x, (f, x) ∈ subs → f ∈ filters ∧ ∃ s, x = some s ∧ s < b.manager.next ∧
      f ∈ (b.manager.objects s).subscriptions

/-- What holds between two operations. -/
structure Serving (filters : TopicFilters) (b : Broker) : Prop where
  consistent : b.Consistent
  registered : b.Registered
  linked : b.Linked
  stored : b.Stored filters

theorem serving_new (filters : TopicFilters) : new.Serving filters where
  consistent := consistent_new
  registered := registered_new
  linked := ⟨by simp [new], by simp [new]⟩
  stored := ⟨SubscriptionTree.built_new, [], grown_new, by simp⟩

/-- The right handler, a valid topic, and a connection that is its own packet
sender. -/
def Admits (b : Broker) (op : BrokerOp) : Prop :=
  b.HandlerFits op ∧
    match op with
    | .accept sender => sender = some b.nextProcessor
    | .packet _ packet _ => ∀ topic ∈ packet.topic?, topic.Valid
    | .destroy _ | .expire _ | .removeSession _ => True

instance (b : Broker) (op : BrokerOp) : Decidable (b.Admits op) := by
  unfold Admits
  cases op <;> infer_instance

section

variable {b b' : Broker} {p : ProcessorId} {proc : Processor} {packet : ControlPacket}
  {filters : TopicFilters}

/-- A session that is lent was stored and not in use, or is new. -/
theorem lent_cases {m : SessionManager} {c : Bytes} {sender : Option SenderId} {s : SessionId}
    (h : (m.getSession c sender p).1 = some s) :
    m.sessions c = some ⟨s, false⟩ ∨ (m.sessions c = none ∧ s = m.next) := by
  cases hw : m.sessions c with
  | none =>
    rw [SessionManager.getSession_new hw] at h
    exact .inr ⟨rfl, (Option.some.inj h).symm⟩
  | some wrapper =>
    obtain ⟨t, inUse⟩ := wrapper
    cases inUse with
    | true => simp [SessionManager.getSession_inUse hw] at h
    | false =>
      rw [SessionManager.getSession_known hw] at h
      rw [Option.some.inj h]
      exact .inl rfl

/-- The processor `p` comes, goes or changes. -/
theorem Linked.update (h : b.Linked) {x : Option Processor}
    (hprocessors : b'.processors = Function.update b.processors p x)
    (hown : ∀ proc ∈ x, proc.packetSender = some p)
    (hother : ∀ s q, q ≠ p → (b'.manager.objects s).sender = some q →
      (b.manager.objects s).sender = some q)
    (hself : ∀ s, (b'.manager.objects s).sender = some p →
      ∃ proc ∈ x, proc.currentSession = some s) : b'.Linked where
  own q proc hq := by
    rw [hprocessors, Function.update_apply] at hq
    split at hq
    · rename_i hqp
      rw [hqp]
      exact hown proc hq
    · exact h.own q proc hq
  lentTo s q hs := by
    unfold Holds
    rw [hprocessors, Function.update_apply]
    split
    · rename_i hqp
      exact hself s (hqp ▸ hs)
    · rename_i hqp
      exact h.lentTo s q (hother s q hqp hs)

/-- A processor that holds no session is the sender of none. -/
theorem Linked.notSender (h : b.Linked) (hold : ∀ s, ¬ b.Holds p s) (s : SessionId) :
    (b.manager.objects s).sender ≠ some p :=
  fun hs => hold s (h.lentTo s p hs)

theorem Linked.frame (h : b.Linked) (hprocessors : b'.processors = b.processors)
    (hsenders : ∀ s, (b'.manager.objects s).sender = (b.manager.objects s).sender) :
    b'.Linked where
  own := by
    rw [hprocessors]
    exact h.own
  lentTo s q hs := by
    unfold Holds
    rw [hprocessors]
    exact h.lentTo s q ((hsenders s).symm.trans hs)

/-- An unconnected processor holds no session. -/
theorem Consistent.not_holds (h : b.Consistent) (hp : b.processors p = some proc)
    (hstatus : proc.status = .none) (s : SessionId) : ¬ b.Holds p s := by
  rintro ⟨proc', hp', hs⟩
  obtain rfl : proc = proc' := Option.some.inj (hp.symm.trans hp')
  simp [h.connected p proc hp (by simp [hstatus])] at hs

/-- The sender of a session that comes back is empty. -/
theorem Consistent.returned_sender (h : b.Consistent) (hp : b.processors p = some proc)
    {t : SessionId} {q : SenderId}
    (hq : ((b.manager.returnSession proc.currentSession).2.2.objects t).sender = some q) :
    (b.manager.objects t).sender = some q ∧ proc.currentSession ≠ some t := by
  cases hs : proc.currentSession with
  | none =>
    rw [hs] at hq
    exact ⟨hq, by simp⟩
  | some s =>
    rw [hs, SessionManager.returnSession_known (h.held p proc s hp hs).1] at hq
    dsimp only at hq
    rw [Function.update_apply] at hq
    split at hq
    · simp [Session.setSender] at hq
    · rename_i hts
      exact ⟨hq, fun hst => hts (Option.some.inj hst).symm⟩

/-- A processor gives its session back, and keeps none. -/
theorem Linked.giveBack (h : b.Linked) (hconsistent : b.Consistent)
    (hp : b.processors p = some proc) {x : Option Processor}
    (hprocessors : b'.processors = Function.update b.processors p x)
    (hown : ∀ proc ∈ x, proc.packetSender = some p)
    (hmanager : b'.manager = (b.manager.returnSession proc.currentSession).2.2) : b'.Linked := by
  refine h.update hprocessors hown ?_ ?_
  · intro s q _ hs
    rw [hmanager] at hs
    exact (hconsistent.returned_sender hp hs).1
  · intro s hs
    rw [hmanager] at hs
    obtain ⟨hsender, hne⟩ := hconsistent.returned_sender hp hs
    obtain ⟨proc', hp', hs'⟩ := h.lentTo s p hsender
    obtain rfl : proc = proc' := Option.some.inj (hp.symm.trans hp')
    exact absurd hs' hne

theorem Linked.asked (h : b.Linked) (hconsistent : b.Consistent) (hp : b.processors p = some proc)
    {op : Option ServiceOp} (hasked : Asked b p proc packet op b') : b'.Linked := by
  have hown : ∀ status session, ∀ x ∈ (some { proc with
      status := status, currentSession := session } : Option Processor),
      x.packetSender = some p := by
    intro status session x hx
    rw [← Option.some.inj hx]
    exact h.own p proc hp
  cases hasked with
  | nothing => exact h
  | refused hstatus =>
    refine h.update (p := p) rfl (hown _ _) (fun _ _ _ hs => hs) ?_
    intro s hs
    exact absurd hs (h.notSender (hconsistent.not_holds hp hstatus) s)
  | @attached connect s hstatus hsender hs =>
    have hlent := lent_cases hs
    -- the sender of `s` is written, and no other
    have hobjects : ∀ t, t ≠ s → (b.manager.getSession connect.clientId proc.packetSender
        p).2.2.objects t = b.manager.objects t := by
      intro t ht
      rcases hlent with hw | ⟨hw, rfl⟩
      · rw [SessionManager.getSession_known hw]
        exact Function.update_of_ne ht ..
      · rw [SessionManager.getSession_new hw]
        exact Function.update_of_ne ht ..
    have hself : ((b.manager.getSession connect.clientId proc.packetSender
        p).2.2.objects s).sender = some p := by
      rcases hlent with hw | ⟨hw, rfl⟩
      · rw [SessionManager.getSession_known hw]
        dsimp only
        rw [Function.update_self]
        exact h.own p proc hp
      · rw [SessionManager.getSession_new hw]
        dsimp only
        rw [Function.update_self]
        exact h.own p proc hp
    refine h.update (p := p) rfl (hown _ _) ?_ ?_
    · intro t q hqp ht
      by_cases hts : t = s
      · subst hts
        exact absurd (Option.some.inj (ht.symm.trans hself)) hqp
      · rwa [← hobjects t hts]
    · intro t ht
      by_cases hts : t = s
      · exact ⟨_, rfl, by rw [hts]⟩
      · change ((b.manager.getSession connect.clientId proc.packetSender
          p).2.2.objects t).sender = some p at ht
        rw [hobjects t hts] at ht
        exact absurd ht (h.notSender (hconsistent.not_holds hp hstatus) t)
  | subscribed =>
    obtain ⟨objects, trees, hframe, hobjects⟩ := b.doProcessSubscribe_frame proc _ _
    rw [hframe]
    refine h.frame rfl ?_
    intro t
    obtain ⟨subscriptions, ht⟩ := hobjects t
    show (objects t).sender = _
    rw [ht]
  | published =>
    obtain ⟨copies, hframe⟩ := b.doProcessPublish_frame packet _ _
    rw [hframe]
    exact h.frame rfl fun _ => rfl
  | disconnected => exact h.giveBack hconsistent hp rfl (hown _ _) rfl

theorem Stored.frame (h : b.Stored filters) (htrees : b'.trees = b.trees)
    (hnext : b.manager.next ≤ b'.manager.next)
    (hobjects : ∀ s < b.manager.next, ∀ f ∈ (b.manager.objects s).subscriptions,
      f ∈ (b'.manager.objects s).subscriptions) : b'.Stored filters := by
  obtain ⟨hbuilt, subs, hgrown, hsubs⟩ := h
  refine ⟨by rwa [htrees], subs, by rwa [htrees], ?_⟩
  intro f x hfx
  obtain ⟨hf, s, hx, hs, hsub⟩ := hsubs f x hfx
  exact ⟨hf, s, hx, hs.trans_le hnext, hobjects s hs f hsub⟩

/-- The filters that are new to a session are written for it. -/
theorem Stored.addSubscriptions (h : b.Stored filters) {s : SessionId} {handler : Processor}
    (hhandler : b.processors (b.manager.objects s).subscriptionHandler = some handler)
    {fs : TopicFilters} (hvalid : ∀ f ∈ fs, f.Valid) (hfs : fs ⊆ filters)
    (hs : s < b.manager.next)
    (hfits : handler.currentSession = some s ∨
      findDifference fs (b.manager.objects s).subscriptions = []) :
    (b.addSubscriptions s fs).2.Stored filters := by
  obtain ⟨hbuilt, subs, hgrown, hsubs⟩ := h
  rw [addSubscriptions_live hhandler]
  have hsubset := findDifference_subset fs (b.manager.objects s).subscriptions
  obtain ⟨hbuilt', hgrown'⟩ := hgrown.addFilters hbuilt
    (fun f hf => hvalid f (hsubset hf)) handler.currentSession
  have htree : b.trees.getWritableTree = b.trees.tree := hbuilt.clone_eq
  refine ⟨?_, subs ++ (findDifference fs (b.manager.objects s).subscriptions).map
    (·, handler.currentSession), ?_, ?_⟩
  · show ((findDifference fs _).foldl _ b.trees.getWritableTree).Built
    rw [htree]
    exact hbuilt'
  · show Grown _ ((findDifference fs _).foldl _ b.trees.getWritableTree).rootNode
    rw [htree]
    exact hgrown'
  · intro f x hfx
    rcases List.mem_append.mp hfx with hfx | hfx
    · obtain ⟨hf, t, hx, ht, hsub⟩ := hsubs f x hfx
      refine ⟨hf, t, hx, ht, ?_⟩
      show f ∈ (Function.update b.manager.objects s _ t).subscriptions
      by_cases hts : t = s
      · subst hts
        rw [Function.update_self]
        exact List.mem_append_left _ hsub
      · rwa [Function.update_of_ne hts]
    · obtain ⟨g, hg, heq⟩ := List.mem_map.mp hfx
      obtain ⟨rfl, rfl⟩ := Prod.mk.inj heq
      have hself : handler.currentSession = some s := by
        rcases hfits with hself | hnil
        · exact hself
        · rw [hnil] at hg
          cases hg
      refine ⟨hfs (hsubset hg), s, hself, hs, ?_⟩
      show g ∈ (Function.update b.manager.objects s _ s).subscriptions
      rw [Function.update_self]
      exact List.mem_append_right _ hg

/-- A session that is held is an object of the manager. -/
theorem Consistent.held_lt (h : b.Consistent) {s : SessionId} (hs : b.Holds p s) :
    s < b.manager.next := by
  obtain ⟨proc, hp, hcur⟩ := hs
  exact (h.stored _ _ (h.held p proc s hp hcur).1).1

/-- A SUBSCRIBE packet of a session that the processor holds. -/
theorem HandlerFits.handler {typed : packet.WellTyped}
    (hfits : b.HandlerFits (.packet p packet typed)) (hp : b.processors p = some proc)
    {s : SessionId} (hs : proc.currentSession = some s) {subs : SubscribeControlPacket}
    (htype : packet.header.controlPacketType = .subscribe) (hbody : packet.body = .subscribe subs)
    (hsender : b.senderExpired proc.packetSender = false) :
    (∀ f ∈ subs.topicFilters, f.Valid) ∧ ∃ handler,
      b.processors (b.manager.objects s).subscriptionHandler = some handler ∧
      (handler.currentSession = some s ∨
        findDifference subs.topicFilters (b.manager.objects s).subscriptions = []) := by
  obtain ⟨hvalid, hhandler⟩ := hfits htype proc hp hsender s hs
  have hfilters : packet.filters = subs.topicFilters := by simp [ControlPacket.filters, hbody]
  rw [hfilters] at hvalid hhandler
  refine ⟨hvalid, ?_⟩
  rcases hhandler with rfl | ⟨hlive, hnil⟩
  · exact ⟨proc, hp, .inl hs⟩
  · obtain ⟨handler, hhandler⟩ := Option.isSome_iff_exists.mp hlive
    exact ⟨handler, hhandler, .inr hnil⟩

/-- Sessions that come back keep their subscriptions. -/
theorem Stored.giveBack (h : b.Stored filters) {session : SessionPtr}
    (htrees : b'.trees = b.trees) (hmanager : b'.manager = (b.manager.returnSession session).2.2) :
    b'.Stored filters := by
  refine h.frame htrees ?_ ?_
  · rw [hmanager]
    unfold SessionManager.returnSession
    split
    · exact le_rfl
    · dsimp only
      split <;> exact le_rfl
  · intro s _ f hf
    rw [hmanager]
    obtain ⟨sender, hobject⟩ := b.manager.returnSession_object session s
    rwa [hobject]

theorem Stored.asked (h : b.Serving filters) (hp : b.processors p = some proc)
    {typed : packet.WellTyped} (hfits : b.HandlerFits (.packet p packet typed))
    (hfilters : packet.filters ⊆ filters) {op : Option ServiceOp}
    (hasked : Asked b p proc packet op b') : b'.Stored filters := by
  cases hasked with
  | nothing => exact h.stored
  | refused => exact h.stored.frame rfl le_rfl fun _ _ _ hf => hf
  | @attached connect s hstatus hsender hs =>
    rcases lent_cases hs with hw | ⟨hw, rfl⟩
    · rw [SessionManager.getSession_known hw]
      refine h.stored.frame rfl le_rfl ?_
      intro t _ f hf
      show f ∈ (Function.update b.manager.objects s _ t).subscriptions
      rw [Function.update_apply]
      split
      · rename_i hts
        exact hts ▸ hf
      · exact hf
    · rw [SessionManager.getSession_new hw]
      refine h.stored.frame rfl (Nat.le_succ _) ?_
      intro t ht f hf
      show f ∈ (Function.update b.manager.objects b.manager.next _ t).subscriptions
      rwa [Function.update_of_ne ht.ne]
  | @subscribed subs ec htype hbody hsender =>
    cases hs : proc.currentSession with
    | none =>
      unfold doProcessSubscribe
      rw [hs]
      exact h.stored
    | some s =>
      obtain ⟨hvalid, handler, hhandler, hself⟩ := hfits.handler hp hs htype hbody hsender
      rw [doProcessSubscribe_some b hs]
      refine h.stored.addSubscriptions hhandler hvalid ?_
        (h.consistent.held_lt ⟨proc, hp, hs⟩) hself
      simpa [ControlPacket.filters, hbody] using hfilters
  | published =>
    obtain ⟨copies, hframe⟩ := b.doProcessPublish_frame packet _ _
    rw [hframe]
    exact h.stored.frame rfl le_rfl fun _ _ _ hf => hf
  | disconnected => exact h.stored.giveBack rfl rfl

/-- **Every operation keeps it**, if what serves is asked for. -/
theorem Serving.step (h : b.Serving filters) {op : BrokerOp} (hop : b.Admits op)
    (hfilters : op.filters ⊆ filters) : (machine b op).2.Serving filters := by
  have hconsistent := h.consistent.step op
  have hregistered := h.registered.step op hop.1
  cases op with
  | accept sender =>
    obtain rfl : sender = some b.nextProcessor := hop.2
    refine ⟨hconsistent, hregistered, ?_, h.stored.frame rfl le_rfl fun _ _ _ hf => hf⟩
    refine h.linked.update (p := b.nextProcessor) rfl ?_ (fun _ _ _ hs => hs) ?_
    · intro proc hproc
      rw [← Option.some.inj hproc]
    · intro s hs
      obtain ⟨proc, hproc, -⟩ := h.linked.lentTo s _ hs
      simp [h.consistent.fresh _ le_rfl] at hproc
  | packet p packet typed =>
    cases hp : b.processors p with
    | none =>
      rw [machine_packet_none hp]
      exact h
    | some proc =>
      rw [machine_packet hp] at hconsistent hregistered ⊢
      have hasked := @processPacket_asked b p proc packet typed none
      exact ⟨hconsistent, hregistered, h.linked.asked h.consistent hp hasked,
        Stored.asked h hp hop.1 hfilters hasked⟩
  | destroy p =>
    cases hp : b.processors p with
    | none =>
      rw [machine_destroy_none hp]
      exact h
    | some proc =>
      rw [machine_destroy hp] at hconsistent hregistered ⊢
      exact ⟨hconsistent, hregistered,
        h.linked.giveBack h.consistent hp rfl (by simp) rfl, h.stored.giveBack rfl rfl⟩
  | expire sender => exact ⟨hconsistent, hregistered, h.linked.frame rfl fun _ => rfl,
      h.stored.frame rfl le_rfl fun _ _ _ hf => hf⟩
  | removeSession clientId =>
    have hobjects : (b.manager.removeSession clientId none).2.2.objects = b.manager.objects :=
      SessionManager.removeSession_objects
    refine ⟨hconsistent, hregistered, h.linked.frame rfl ?_, h.stored.frame rfl ?_ ?_⟩
    · intro s
      show ((b.manager.removeSession clientId none).2.2.objects s).sender = _
      rw [hobjects]
    · show _ ≤ (b.manager.removeSession clientId none).2.2.next
      unfold SessionManager.removeSession
      split
      · exact le_rfl
      · split <;> exact le_rfl
    · intro s _ f hf
      show f ∈ ((b.manager.removeSession clientId none).2.2.objects s).subscriptions
      rwa [hobjects]

/-! ## §3 Who is sent a PUBLISH packet -/

/-- **`match` finds the sessions that have a filter for the topic.** -/
theorem Serving.mem_sessionsFor (h : b.Serving filters) (hcross : ¬ Crossing filters)
    {t : TopicName} (ht : t.Valid) (s : SessionId) :
    some s ∈ b.trees.tree.sessionsFor t ↔
      ∃ f ∈ (b.manager.objects s).subscriptions, FitsTopic f t := by
  obtain ⟨-, subs, hgrown, hsubs⟩ := h.stored
  have hless : ¬ Crossing (subs.map Prod.fst) := by
    intro hsome
    refine hcross (hsome.mono ?_)
    intro f hf
    obtain ⟨⟨f, x⟩, hfx, rfl⟩ := List.mem_map.mp hf
    exact (hsubs f x hfx).1
  rw [Acatl.Mqtt.mem_sessionsFor hgrown hless ht]
  constructor
  · rintro ⟨f, hfx, hfits⟩
    obtain ⟨-, s', hs', -, hsub⟩ := hsubs f (some s) hfx
    obtain rfl := Option.some.inj hs'
    exact ⟨f, hsub, hfits⟩
  · rintro ⟨f, hsub, hfits⟩
    obtain ⟨g, hg, hlevels⟩ := (hgrown.stored f.levels (some s)).mp (h.registered.recorded s f hsub)
    exact ⟨g, hg, by rwa [hlevels]⟩

/-- A session has a packet sender while a connection that is not gone holds it. -/
theorem Serving.currentSender_iff (h : b.Serving filters) {s : SessionId} :
    b.currentSender s = some p ↔ b.expired p = false ∧ b.Holds p s := by
  have hsender : (b.manager.objects s).sender = some p ↔ b.Holds p s := by
    refine ⟨h.linked.lentTo s p, ?_⟩
    rintro ⟨proc, hp, hs⟩
    rw [(h.consistent.held p proc s hp hs).2]
    exact h.linked.own p proc hp
  rw [← hsender]
  unfold currentSender senderExpired
  cases hs : (b.manager.objects s).sender with
  | none => simp
  | some q =>
    by_cases hqp : q = p
    · subst hqp
      simp
    · simp [hqp]

/-- What is stored for the client of a connection is what its session has. -/
theorem Serving.subscriptions_held (h : b.Serving filters) {s : SessionId} (hs : b.Holds p s)
    (f : TopicFilter) : f ∈ b.subscriptionsOf (b.manager.objects s).clientId ↔
      f ∈ (b.manager.objects s).subscriptions := by
  obtain ⟨proc, hp, hcur⟩ := hs
  rw [mem_subscriptionsOf, storedFor, (h.consistent.held p proc s hp hcur).1]
  simp

/-- **A connection wants a PUBLISH packet** if it is the packet sender of a
session that has a filter for the topic. -/
theorem Serving.wants_iff (h : b.Serving filters) {t : TopicName} :
    b.service.Wants FitsTopic p t ↔ ∃ s, b.currentSender s = some p ∧
      ∃ f ∈ (b.manager.objects s).subscriptions, FitsTopic f t := by
  unfold PubSub.Service.Wants
  constructor
  · rintro ⟨c, hc, f, hf, hfits⟩
    obtain ⟨hlive, s, hs, rfl⟩ := clientOf_iff.mp hc
    exact ⟨s, h.currentSender_iff.mpr ⟨hlive, hs⟩, f, (h.subscriptions_held hs f).mp hf, hfits⟩
  · rintro ⟨s, hsender, f, hf, hfits⟩
    obtain ⟨hlive, hs⟩ := h.currentSender_iff.mp hsender
    exact ⟨_, clientOf_iff.mpr ⟨hlive, s, hs, rfl⟩, f, (h.subscriptions_held hs f).mpr hf, hfits⟩

/-- Two sessions do not have the same packet sender. -/
theorem Serving.eq_of_sender (h : b.Serving filters) {s t : SessionId}
    (hs : b.currentSender s = some p) (ht : b.currentSender t = some p) : s = t := by
  obtain ⟨-, proc, hp, hs⟩ := h.currentSender_iff.mp hs
  obtain ⟨-, proc', hp', ht⟩ := h.currentSender_iff.mp ht
  obtain rfl : proc = proc' := Option.some.inj (hp.symm.trans hp')
  exact Option.some.inj (hs.symm.trans ht)

open Classical in
/-- The copies of a PUBLISH packet for a connection: one, or none. -/
theorem Serving.copies (h : b.Serving filters) (hcross : ¬ Crossing filters) {t : TopicName}
    (ht : t.Valid) :
    ((b.trees.tree.sessionsFor t).filter fun session =>
      session.bind b.currentSender = some p).card =
        if b.service.Wants FitsTopic p t then 1 else 0 := by
  rw [h.wants_iff]
  split
  · rename_i hwants
    obtain ⟨s, hs, hsub⟩ := hwants
    rw [Finset.card_eq_one]
    refine ⟨some s, ?_⟩
    ext x
    rw [Finset.mem_filter, Finset.mem_singleton]
    constructor
    · rintro ⟨-, hx⟩
      obtain ⟨t, rfl, ht⟩ := Option.bind_eq_some_iff.mp hx
      rw [h.eq_of_sender hs ht]
    · rintro rfl
      exact ⟨(h.mem_sessionsFor hcross ht s).mpr hsub, hs⟩
  · rename_i hwants
    rw [Finset.card_eq_zero, Finset.filter_eq_empty_iff]
    intro x hx hsender
    obtain ⟨s, rfl, hs⟩ := Option.bind_eq_some_iff.mp hsender
    exact hwants ⟨s, hs, (h.mem_sessionsFor hcross ht s).mp hx⟩

open Classical in
/-- **A PUBLISH packet is sent to the connections that want it.** -/
theorem Serving.doProcessPublish (h : b.Serving filters) (hcross : ¬ Crossing filters)
    {pub : PublishControlPacket} (ht : pub.topicName.Valid) (ec : ErrorCode) :
    (b.doProcessPublish packet pub ec).broker = { b with
      sent := fun p => b.sent p ++
        if b.service.Wants FitsTopic p pub.topicName then [packet] else [] } := by
  have hcopies := fun p => h.copies (p := p) hcross ht
  have hsent : ∀ p, List.replicate (((b.trees.tree.sessionsFor pub.topicName).filter
      fun session => session.bind b.currentSender = some p).card) packet =
        if b.service.Wants FitsTopic p pub.topicName then [packet] else [] := by
    intro p
    rw [hcopies]
    split <;> rfl
  have hnone : none ∉ b.trees.tree.sessionsFor pub.topicName := by
    intro hnone
    rw [sessionsFor_eq_walk] at hnone
    obtain ⟨path, hstored, -⟩ := walk_visits _ _ h.registered.rooted.shaped
      h.registered.rooted.inner ht.plain hnone
    exact h.registered.noNull path hstored
  unfold Broker.doProcessPublish
  simp only [← hsent]
  split
  · split
    · exact absurd ‹_› hnone
    · rfl
  · -- no session was found, so nobody wants it
    rename_i hfound
    have hempty : b.trees.tree.sessionsFor pub.topicName = ∅ := by
      by_contra hsome
      obtain ⟨path, hpath, -⟩ := (matchTopic_nonempty_iff _ _).mp
        (Finset.nonempty_iff_ne_empty.mpr hsome)
      exact hfound ((matchTopic_true_iff _ _).mpr ⟨path, hpath⟩)
    simp [hempty]

/-! ## §4 An operation -/

theorem clientOf_congr (hexpired : b'.expired = b.expired)
    (hholds : ∀ s, b'.Holds p s ↔ b.Holds p s)
    (hclient : ∀ s, b.Holds p s →
      (b'.manager.objects s).clientId = (b.manager.objects s).clientId) :
    b'.clientOf p = b.clientOf p := by
  refine Option.ext fun c => ?_
  rw [clientOf_iff, clientOf_iff, hexpired]
  refine and_congr_right fun _ => exists_congr fun s => ?_
  rw [hholds]
  refine and_congr_right fun hs => ?_
  rw [hclient s hs]

theorem subscriptionsOf_congr {c : Bytes} (hstored : b'.storedFor c = b.storedFor c)
    (hobjects : ∀ s, b.storedFor c = some s →
      (b'.manager.objects s).subscriptions = (b.manager.objects s).subscriptions) :
    b'.subscriptionsOf c = b.subscriptionsOf c := by
  ext f
  rw [mem_subscriptionsOf, mem_subscriptionsOf, hstored]
  refine exists_congr fun s => and_congr_right fun hs => ?_
  rw [hobjects s hs]

theorem storedFor_iff {c : Bytes} {s : SessionId} :
    b.storedFor c = some s ↔ ∃ inUse, b.manager.sessions c = some ⟨s, inUse⟩ := by
  unfold storedFor
  cases b.manager.sessions c with
  | none => simp
  | some wrapper =>
    obtain ⟨t, inUse⟩ := wrapper
    simp

theorem mem_subscriptionsOf_stored {c : Bytes} {s : SessionId} (hs : b.storedFor c = some s)
    {f : TopicFilter} : f ∈ b.subscriptionsOf c ↔ f ∈ (b.manager.objects s).subscriptions := by
  simp [mem_subscriptionsOf, hs]

/-- The other processors hold what they held. -/
theorem holds_other {x : Option Processor}
    (hprocessors : b'.processors = Function.update b.processors p x) {q : ProcessorId}
    (hqp : q ≠ p) (s : SessionId) : b'.Holds q s ↔ b.Holds q s := by
  unfold Holds
  rw [hprocessors, Function.update_of_ne hqp]

theorem holds_self {x : Option Processor}
    (hprocessors : b'.processors = Function.update b.processors p x) (s : SessionId) :
    b'.Holds p s ↔ ∃ proc, x = some proc ∧ proc.currentSession = some s := by
  unfold Holds
  rw [hprocessors, Function.update_self]

theorem clientOf_eq_none (hold : ∀ s, ¬ b.Holds p s) : b.clientOf p = none := by
  refine Option.eq_none_iff_forall_ne_some.mpr fun c hc => ?_
  obtain ⟨-, s, hs, -⟩ := clientOf_iff.mp hc
  exact hold s hs

/-- Nothing that the service sees is changed. -/
theorem service_congr (hsubscriptions : ∀ c, b'.subscriptionsOf c = b.subscriptionsOf c)
    (hclient : ∀ p, b'.clientOf p = b.clientOf p) (hsent : b'.sent = b.sent) :
    b'.service = b.service :=
  PubSub.Service.ext (funext hsubscriptions) (funext hclient) hsent

/-- A processor that held no session, and holds none. -/
theorem service_idle {x : Option Processor}
    (hprocessors : b'.processors = Function.update b.processors p x)
    (hbefore : ∀ s, ¬ b.Holds p s) (hafter : ∀ proc, x = some proc → proc.currentSession = none)
    (hmanager : b'.manager = b.manager) (hexpired : b'.expired = b.expired)
    (hsent : b'.sent = b.sent) : b'.service = b.service := by
  refine service_congr ?_ ?_ hsent
  · intro c
    refine subscriptionsOf_congr ?_ ?_
    · simp [storedFor, hmanager]
    · simp [hmanager]
  · intro q
    refine clientOf_congr hexpired ?_ ?_
    · intro s
      by_cases hqp : q = p
      · subst hqp
        refine iff_of_false ?_ (hbefore s)
        rw [holds_self hprocessors]
        rintro ⟨proc, hx, hs⟩
        simp [hafter proc hx] at hs
      · exact holds_other hprocessors hqp s
    · simp [hmanager]

/-- A connection gets the session of a client. -/
theorem Serving.service_attached (h : b.Serving filters) (hp : b.processors p = some proc)
    (hsender : b.senderExpired proc.packetSender = false)
    {connect : ConnectControlPacket} {s : SessionId}
    (hs : (b.manager.getSession connect.clientId proc.packetSender p).1 = some s)
    (hmanager : b'.manager = (b.manager.getSession connect.clientId proc.packetSender p).2.2)
    (hprocessors : b'.processors = Function.update b.processors p
      (some { proc with status := .connected, currentSession := some s }))
    (hexpired : b'.expired = b.expired) (hsent : b'.sent = b.sent) :
    b'.service = PubSub.step FitsTopic b.service (.attach p connect.clientId) := by
  have hlive : b.expired p = false := by
    rw [h.linked.own p proc hp] at hsender
    exact hsender
  have hlent := lent_cases hs
  -- the session is that of the client, and the others are as they were
  have hself : (b'.manager.objects s).clientId = connect.clientId := by
    rw [hmanager]
    rcases hlent with hw | ⟨hw, rfl⟩
    · rw [SessionManager.getSession_known hw]
      dsimp only
      rw [Function.update_self]
      exact (h.consistent.stored _ _ hw).2
    · rw [SessionManager.getSession_new hw]
      dsimp only
      rw [Function.update_self]
  have hother : ∀ t < b.manager.next,
      (b'.manager.objects t).clientId = (b.manager.objects t).clientId ∧
      (b'.manager.objects t).subscriptions = (b.manager.objects t).subscriptions := by
    intro t ht
    rw [hmanager]
    rcases hlent with hw | ⟨hw, rfl⟩
    · rw [SessionManager.getSession_known hw]
      dsimp only
      rw [Function.update_apply]
      split
      · rename_i hts
        rw [hts]
        exact ⟨rfl, rfl⟩
      · exact ⟨rfl, rfl⟩
    · rw [SessionManager.getSession_new hw]
      dsimp only
      rw [Function.update_of_ne ht.ne]
      exact ⟨rfl, rfl⟩
  have hstored : ∀ c, b'.subscriptionsOf c = b.subscriptionsOf c := by
    intro c
    by_cases hc : c = connect.clientId ∧ b.manager.sessions c = none
    · -- a new session, without filters
      obtain ⟨rfl, hw⟩ := hc
      have hnew : b'.manager.sessions connect.clientId = some ⟨b.manager.next, true⟩ ∧
          (b'.manager.objects b.manager.next).subscriptions = [] := by
        rw [hmanager, SessionManager.getSession_new hw]
        dsimp only
        rw [Function.update_self, Function.update_self]
        exact ⟨rfl, rfl⟩
      ext f
      refine iff_of_false ?_ ?_
      · rw [mem_subscriptionsOf, storedFor, hnew.1]
        rintro ⟨t, ht, hf⟩
        rw [← Option.some.inj ht, hnew.2] at hf
        cases hf
      · rw [mem_subscriptionsOf, storedFor, hw]
        rintro ⟨t, ht, -⟩
        cases ht
    · refine subscriptionsOf_congr ?_ ?_
      · rw [storedFor, storedFor, hmanager]
        rcases hlent with hw | ⟨hw, rfl⟩
        · rw [SessionManager.getSession_known hw]
          dsimp only
          rw [Function.update_apply]
          split
          · rename_i hcc
            rw [hcc, hw]
            rfl
          · rfl
        · rw [SessionManager.getSession_new hw]
          dsimp only
          rw [Function.update_of_ne]
          rintro rfl
          exact hc ⟨rfl, hw⟩
      · intro t ht
        obtain ⟨inUse, hw⟩ := storedFor_iff.mp ht
        exact (hother t (h.consistent.stored c _ hw).1).2
  refine PubSub.Service.ext (funext hstored) ?_ hsent
  funext q
  show b'.clientOf q = Function.update b.clientOf p (some connect.clientId) q
  by_cases hqp : q = p
  · subst hqp
    rw [Function.update_self, clientOf_iff, hexpired]
    exact ⟨hlive, s, (holds_self hprocessors s).mpr ⟨_, rfl, rfl⟩, hself⟩
  · rw [Function.update_of_ne hqp]
    exact clientOf_congr hexpired (holds_other hprocessors hqp)
      fun t ht => (hother t (h.consistent.held_lt ht)).1

/-- A connection gives its session back. -/
theorem Serving.service_giveBack (h : b.Serving filters) (hp : b.processors p = some proc)
    {x : Option Processor} (hprocessors : b'.processors = Function.update b.processors p x)
    (hafter : ∀ proc, x = some proc → proc.currentSession = none)
    (hmanager : b'.manager = (b.manager.returnSession proc.currentSession).2.2)
    (hexpired : b'.expired = b.expired) (hsent : b'.sent = b.sent) :
    b'.service = PubSub.step FitsTopic b.service (.detach p) := by
  have hobjects : ∀ t, ∃ sender,
      b'.manager.objects t = { b.manager.objects t with sender := sender } := by
    rw [hmanager]
    exact b.manager.returnSession_object _
  have hstored : ∀ c, b'.storedFor c = b.storedFor c := by
    intro c
    rw [storedFor, storedFor, hmanager]
    cases hs : proc.currentSession with
    | none => rfl
    | some s =>
      have hheld := (h.consistent.held p proc s hp hs).1
      rw [SessionManager.returnSession_known hheld]
      dsimp only
      rw [Function.update_apply]
      split
      · rename_i hc
        rw [hc, hheld]
        rfl
      · rfl
  refine PubSub.Service.ext (funext fun c => ?_) (funext fun q => ?_) hsent
  · refine subscriptionsOf_congr (hstored c) ?_
    intro s _
    obtain ⟨sender, hobject⟩ := hobjects s
    rw [hobject]
  · show b'.clientOf q = Function.update b.clientOf p none q
    by_cases hqp : q = p
    · subst hqp
      rw [Function.update_self]
      refine clientOf_eq_none fun s hs => ?_
      obtain ⟨proc', hx, hs⟩ := (holds_self hprocessors s).mp hs
      simp [hafter proc' hx] at hs
    · rw [Function.update_of_ne hqp]
      refine clientOf_congr hexpired (holds_other hprocessors hqp) ?_
      intro s _
      obtain ⟨sender, hobject⟩ := hobjects s
      rw [hobject]

/-- A SUBSCRIBE packet. -/
theorem Serving.service_subscribed (h : b.Serving filters) (hp : b.processors p = some proc)
    {subs : SubscribeControlPacket} {typed : packet.WellTyped}
    (htype : packet.header.controlPacketType = .subscribe) (hbody : packet.body = .subscribe subs)
    (hsender : b.senderExpired proc.packetSender = false)
    (hfits : b.HandlerFits (.packet p packet typed)) (ec : ErrorCode) :
    (b.doProcessSubscribe proc subs ec).broker.service =
      PubSub.step FitsTopic b.service (.subscribe p {f | f ∈ subs.topicFilters}) := by
  have hlive : b.expired p = false := by
    rw [h.linked.own p proc hp] at hsender
    exact hsender
  cases hs : proc.currentSession with
  | none =>
    have hnone : b.service.attached p = none := by
      refine clientOf_eq_none fun s hold => ?_
      obtain ⟨proc', hp', hs'⟩ := hold
      obtain rfl : proc = proc' := Option.some.inj (hp.symm.trans hp')
      simp [hs] at hs'
    unfold doProcessSubscribe PubSub.step
    rw [hs]
    simp only [hnone]
  | some s =>
    have hheld := (h.consistent.held p proc s hp hs).1
    have hclient : b.service.attached p = some (b.manager.objects s).clientId :=
      clientOf_iff.mpr ⟨hlive, s, ⟨proc, hp, hs⟩, rfl⟩
    obtain ⟨-, handler, hhandler, -⟩ := hfits.handler hp hs htype hbody hsender
    rw [doProcessSubscribe_some b hs, addSubscriptions_live hhandler]
    unfold PubSub.step
    simp only [hclient]
    -- the objects afterwards
    have hobjects : ∀ t, (Function.update b.manager.objects s
        ((b.manager.objects s).addSubscriptions subs.topicFilters).2 t).clientId =
          (b.manager.objects t).clientId := by
      intro t
      rw [Function.update_apply]
      split
      · rename_i hts
        rw [hts]
        rfl
      · rfl
    refine PubSub.Service.ext (funext fun c => ?_) (funext fun q => ?_) rfl
    · show subscriptionsOf _ c = Function.update b.subscriptionsOf _ _ c
      by_cases hc : c = (b.manager.objects s).clientId
      · subst hc
        rw [Function.update_self]
        ext f
        have hstored : b.storedFor (b.manager.objects s).clientId = some s :=
          storedFor_iff.mpr ⟨true, hheld⟩
        refine Iff.trans (mem_subscriptionsOf_stored (s := s) ?_) ?_
        · exact hstored
        rw [Set.mem_union]
        show f ∈ (Function.update b.manager.objects s _ s).subscriptions ↔
          f ∈ b.subscriptionsOf _ ∨ f ∈ subs.topicFilters
        rw [Function.update_self, mem_subscriptionsOf_stored hstored]
        constructor
        · intro hf
          exact (List.mem_append.mp hf).imp id fun hf => findDifference_subset _ _ hf
        · rintro (hf | hf)
          · exact List.mem_append_left _ hf
          · exact List.mem_append.mpr (mem_findDifference hf).symm
      · rw [Function.update_of_ne hc]
        refine subscriptionsOf_congr rfl ?_
        intro t ht
        obtain ⟨inUse, hw⟩ := storedFor_iff.mp ht
        show (Function.update b.manager.objects s _ t).subscriptions = _
        rw [Function.update_of_ne]
        rintro rfl
        exact hc (h.consistent.stored c _ hw).2.symm
    · exact clientOf_congr rfl (fun _ => Iff.rfl) fun t _ => hobjects t

/-- **An operation does what it asks of the service.** -/
theorem Serving.service_step (h : b.Serving filters) (hcross : ¬ Crossing filters) {op : BrokerOp}
    (hop : b.Admits op) : (PubSub.machine FitsTopic).after b.service (b.serviceOp op).toList =
      (machine b op).2.service := by
  obtain ⟨hfits, hop⟩ := hop
  cases op with
  | accept sender =>
    have hbefore : ∀ s, ¬ b.Holds b.nextProcessor s := by
      rintro s ⟨proc, hproc, -⟩
      simp [h.consistent.fresh _ le_rfl] at hproc
    have hafter : ∀ proc, some ({ packetSender := sender } : Processor) = some proc →
        proc.currentSession = none := by
      intro proc hproc
      rw [← Option.some.inj hproc]
    have hidle : (machine b (.accept sender)).2.service = b.service :=
      service_idle rfl hbefore hafter rfl rfl rfl
    exact hidle.symm
  | packet p packet typed =>
    cases hp : b.processors p with
    | none =>
      have hnone : b.serviceOp (.packet p packet typed) = none := by simp [serviceOp, hp]
      rw [machine_packet_none hp, hnone]
      rfl
    | some proc =>
      have hpacket : b.serviceOp (.packet p packet typed) = b.packetServiceOp p proc packet := by
        simp [serviceOp, hp]
      rw [machine_packet hp, hpacket]
      have hasked := @processPacket_asked b p proc packet typed none
      generalize b.packetServiceOp p proc packet = op at hasked ⊢
      dsimp only
      generalize (b.processPacket p proc packet none).broker = b' at hasked ⊢
      cases hasked with
      | nothing => rfl
      | refused hstatus =>
        symm
        refine service_idle rfl (h.consistent.not_holds hp hstatus) ?_ rfl rfl rfl
        intro proc' hproc'
        rw [← Option.some.inj hproc']
      | attached hstatus hsender hs =>
        symm
        exact h.service_attached hp hsender hs rfl rfl rfl rfl
      | subscribed htype hbody hsender =>
        exact (h.service_subscribed hp htype hbody hsender hfits _).symm
      | @published pub ec htype hbody =>
        have ht : pub.topicName.Valid := hop _ (by simp [ControlPacket.topic?, hbody])
        rw [h.doProcessPublish hcross ht]
        rfl
      | disconnected =>
        symm
        refine h.service_giveBack hp rfl ?_ rfl rfl rfl
        intro proc' hproc'
        rw [← Option.some.inj hproc']
  | destroy p =>
    cases hp : b.processors p with
    | none =>
      rw [machine_destroy_none hp]
      have hnone : b.clientOf p = none := by
        refine clientOf_eq_none fun s hs => ?_
        obtain ⟨proc, hproc, -⟩ := hs
        simp [hp] at hproc
      refine PubSub.Service.ext rfl ?_ rfl
      show Function.update b.clientOf p none = b.clientOf
      rw [← hnone, Function.update_eq_self]
    | some proc =>
      rw [machine_destroy hp]
      symm
      exact h.service_giveBack hp rfl (by simp) rfl rfl rfl
  | expire sender =>
    refine PubSub.Service.ext rfl (funext fun q => ?_) rfl
    show Function.update b.clientOf sender none q =
      clientOf { b with expired := Function.update b.expired sender true } q
    rw [Function.update_apply]
    split
    · rename_i hq
      simp [clientOf, hq]
    · rename_i hq
      simp [clientOf, hq]
  | removeSession c =>
    by_cases hfree : ∃ s, b.manager.sessions c = some ⟨s, false⟩
    · obtain ⟨s, hs⟩ := hfree
      have hremoved : b.manager.removeSession c none = _ := SessionManager.removeSession_free hs
      have hforget : b.serviceOp (.removeSession c) = some (.forget c) := by
        simp [serviceOp, hremoved]
      have hafter : (machine b (.removeSession c)).2 = { b with
          manager.sessions := Function.update b.manager.sessions c none } := by
        simp [machine, hremoved]
      rw [hafter, hforget]
      refine PubSub.Service.ext (funext fun c' => ?_) rfl rfl
      show Function.update b.subscriptionsOf c ∅ c' = subscriptionsOf _ c'
      by_cases hc : c' = c
      · subst hc
        simp [subscriptionsOf, storedFor]
      · simp [subscriptionsOf, storedFor, hc]
    · obtain ⟨hfalse, hsame⟩ : (b.manager.removeSession c none).1 = false ∧ _ :=
        SessionManager.removeSession_kept (not_exists.mp hfree)
      have hnone : b.serviceOp (.removeSession c) = none := by simp [serviceOp, hfalse]
      have hafter : (machine b (.removeSession c)).2 = b := by simp [machine, hsame]
      rw [hafter, hnone]
      rfl

end

/-! ## §5 Every run -/

/-- The filters that a run subscribes to. -/
def subscribedFilters (ops : List BrokerOp) : TopicFilters := ops.flatMap BrokerOp.filters

/-- The run of the service. -/
theorem service_after {ops : List BrokerOp} (hops : machine.Along Admits new ops)
    (hcross : ¬ Crossing (subscribedFilters ops)) :
    (PubSub.machine FitsTopic).after PubSub.empty (serviceOps ops) =
      (machine.after new ops).service := by
  -- each filter that a step subscribes to is one of those of the run
  have hsteps : machine.Along (fun b op => b.Admits op ∧ op.filters ⊆ subscribedFilters ops)
      new ops := by
    refine Machine.along_iff_steps.mpr fun front op hfront => ?_
    refine ⟨Machine.along_iff_steps.mp hops front op hfront, ?_⟩
    intro f hf
    exact List.mem_flatMap.mpr ⟨op, hfront.subset (by simp), hf⟩
  have hnew : new.service = PubSub.empty := by
    refine PubSub.Service.ext ?_ ?_ rfl
    · funext c
      simp [service, subscriptionsOf, storedFor, new, PubSub.empty]
    · funext p
      simp [service, clientOf, new, PubSub.empty]
  have hrun : (PubSub.machine FitsTopic).Along (fun _ _ => True) new.service (serviceOps ops) ∧
      (PubSub.machine FitsTopic).after new.service (serviceOps ops) =
        ((machine.seenAs serviceOp).after new ops).service :=
    Machine.drives_along service Option.toList (Serving (subscribedFilters ops))
      (fun _ _ h hop => h.step hop.1 hop.2)
      (fun b op h hop => ⟨Machine.along_iff_steps.mpr fun _ _ _ => trivial,
        h.service_step hcross hop.1⟩)
      (serving_new _) ((Machine.along_seenAs serviceOp).mpr hsteps)
  rw [Machine.after_seenAs, hnew] at hrun
  exact hrun.2

end Broker

open Broker

/-- **The broker is a publish/subscribe service** in the runs in which what
serves is asked for and no two filters cross: the filters of the clients, the
connections they are reached through, and what was sent to each connection are
those of the service. -/
theorem broker_serves {ops : List BrokerOp} (hops : machine.Along Admits new ops)
    (hcross : ¬ Crossing (subscribedFilters ops)) :
    (machine.after new ops).service =
      (PubSub.machine FitsTopic).after PubSub.empty (serviceOps ops) :=
  (service_after hops hcross).symm

/-- A message on the topic "f". -/
def messageF : ControlPacket :=
  ⟨{ controlPacketType := .publish }, .publish { topicName := ⟨[0x66]⟩, payload := [0x78] }⟩

def clientB : ControlPacket := ⟨{ controlPacketType := .connect }, .connect { clientId := [0x62] }⟩

theorem clientA_wellTyped : clientA.WellTyped := by decide
theorem filterFG_wellTyped : filterFG.WellTyped := by decide

/-- One client subscribes to "f" and "g", another one publishes. -/
def relaying : List BrokerOp :=
  [.accept (some 0), .packet 0 clientA clientA_wellTyped, .packet 0 filterFG filterFG_wellTyped,
    .accept (some 1), .packet 1 clientB (by decide), .packet 1 messageF (by decide)]

theorem broker_serves_relaying : (machine.after new relaying).service =
    (PubSub.machine FitsTopic).after PubSub.empty (serviceOps relaying) :=
  broker_serves (by decide) (not_crossing_of_plain (by decide))

end Acatl.Mqtt

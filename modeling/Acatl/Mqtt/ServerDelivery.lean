/-
Acatl.Mqtt.ServerDelivery — who is given what is published, whatever bytes come
in and in whatever order between the connections.

`Acatl.Mqtt.BrokerService` says what the broker is for, and here the packets are
those that the parsers make of the bytes: their filters and topics are valid,
and a connection is its own packet sender, so that what is left to ask for is
the right handler of each SUBSCRIBE packet and filters that do not cross.

  `brokerOps_serve`   a run of the server is a run of a broker that serves.
  `server_delivers`   a connection is given a message exactly if it stands for a
                      client that has a filter for it, once, and in order.
-/
import Acatl.Mqtt.BrokerService
import Acatl.Mqtt.Server

namespace Acatl.Mqtt

open Acatl.Lib

namespace Server

/-- What a run asks of the service. -/
def serviceOps (sort : TopicFilters → TopicFilters) (ops : List ServerOp) : List ServiceOp :=
  Broker.serviceOps (brokerOps sort ops)

/-- What a connection was given in a run, of what others have published. -/
def sentTo (sort : TopicFilters → TopicFilters) (ops : List ServerOp) (p : ProcessorId) :
    List ControlPacket :=
  ((machine sort).after new ops).broker.sent p

/-- In all of the run, a message is given to the connections that it is due to,
once, and nothing else is. -/
structure Delivers (sort : TopicFilters → TopicFilters) (ops : List ServerOp) : Prop where
  sublist : ∀ p, (sentTo sort ops p).Sublist (PubSub.published (serviceOps sort ops))
  published : ∀ front op t m, front ++ [op] <+: ops →
    serviceOps sort (front ++ [op]) = serviceOps sort front ++ [.publish t m] →
    ∀ p, (PubSub.Due FitsTopic (serviceOps sort front) p t →
        sentTo sort (front ++ [op]) p = sentTo sort front p ++ [m]) ∧
      (¬ PubSub.Due FitsTopic (serviceOps sort front) p t →
        sentTo sort (front ++ [op]) p = sentTo sort front p)
  other : ∀ front op, front ++ [op] <+: ops →
    (∀ t m, serviceOps sort (front ++ [op]) ≠ serviceOps sort front ++ [.publish t m]) →
    ∀ p, sentTo sort (front ++ [op]) p = sentTo sort front p

section

variable {sort : TopicFilters → TopicFilters}

/-- **A run of the server is a run of a broker that serves**, if each SUBSCRIBE
packet has the right handler. -/
theorem brokerOps_serve (hsort : ∀ filters, sort filters ⊆ filters) {ops : List ServerOp}
    (hops : (machine sort).Along (fun s op => s.Enabled sort op ∧ s.HandlerFits sort op) new ops) :
    Broker.machine.Along Broker.Admits .new (brokerOps sort ops) ∧
      Broker.machine.after .new (brokerOps sort ops) = ((machine sort).after new ops).broker := by
  refine Machine.drives_along broker Option.toList Faultless
    (fun _ _ h hop => h.step hsort hop.1 hop.2) ?_ faultless_new hops
  intro s op h hop
  refine ⟨?_, broker_step hsort h.served hop.1⟩
  have hstep := stepped hop.1
  have hfits : s.HandlerFits sort op := hop.2
  unfold HandlerFits at hfits
  generalize (machine sort s op).1 = answer at hstep hfits ⊢
  generalize (machine sort s op).2 = s' at hstep
  cases hstep with
  | @processed p call proc packet hp hproc hret hpacket =>
    obtain ⟨packet', hsome, hwell⟩ := (h.served.checked p).consumed hsort hret
    obtain rfl : packet' = packet := Option.some.inj (hsome.symm.trans hpacket)
    rw [packetOp_eq hwell.wellTyped] at hfits ⊢
    exact ⟨⟨Broker.HasHandler.handlerFits hwell hfits, hwell.topic⟩, trivial⟩
  | accepted => exact ⟨⟨trivial, rfl⟩, trivial⟩
  | expired | destroyed | removed => exact ⟨⟨trivial, trivial⟩, trivial⟩
  | more | rejected | noPacket | replied | failed => trivial

theorem brokerOps_append (front back : List ServerOp) :
    brokerOps sort (front ++ back) = brokerOps sort front ++
      ((machine sort).outputs ((machine sort).after new front) back).flatMap Option.toList := by
  rw [brokerOps, Machine.outputs_append, List.flatMap_append]
  rfl

/-- A step asks one thing of the service, or nothing. -/
theorem serviceOps_concat (front : List ServerOp) (op : ServerOp) : ∃ asked : Option ServiceOp,
    serviceOps sort (front ++ [op]) = serviceOps sort front ++ asked.toList := by
  rw [serviceOps, brokerOps_append]
  cases hop : (machine sort ((machine sort).after new front) op).1 with
  | none => exact ⟨none, by simp [serviceOps, hop]⟩
  | some brokerOp =>
    refine ⟨(Broker.machine.after .new (brokerOps sort front)).serviceOp brokerOp, ?_⟩
    simp [Broker.serviceOps, serviceOps, hop, Machine.outputs_append, Machine.seenAs]

/-- What was given to a connection is in its inbox. -/
theorem sentTo_eq (hsort : ∀ filters, sort filters ⊆ filters) {ops : List ServerOp}
    (hops : (machine sort).Along (fun s op => s.Enabled sort op ∧ s.HandlerFits sort op) new ops)
    (hcross : ¬ Crossing (Broker.subscribedFilters (brokerOps sort ops))) {front : List ServerOp}
    (hfront : front <+: ops) (p : ProcessorId) : sentTo sort front p =
      ((PubSub.machine FitsTopic).after PubSub.empty (serviceOps sort front)).inbox p := by
  obtain ⟨hserve, hbroker⟩ := brokerOps_serve hsort (Machine.along_left hfront hops)
  have hless : ¬ Crossing (Broker.subscribedFilters (brokerOps sort front)) := by
    intro hsome
    refine hcross (hsome.mono ?_)
    obtain ⟨back, rfl⟩ := hfront
    rw [brokerOps_append]
    unfold Broker.subscribedFilters
    rw [List.flatMap_append]
    exact List.subset_append_left _ _
  rw [serviceOps, Broker.service_after hserve hless, sentTo, hbroker]
  rfl

end

end Server

open Server

/-- **A connection is given a message exactly if it stands for a client that has
a filter for it**: one that has subscribed since it was forgotten last, through
whatever connections. Nothing is invented, doubled or reordered. -/
theorem server_delivers (sort : TopicFilters → TopicFilters)
    (hsort : ∀ filters, sort filters ⊆ filters) (ops : List ServerOp)
    (hops : (machine sort).Along (fun s op => s.Enabled sort op ∧ s.HandlerFits sort op) new ops)
    (hcross : ¬ Crossing (Broker.subscribedFilters (brokerOps sort ops))) : Delivers sort ops := by
  have hsent : ∀ {front}, front <+: ops → ∀ p, sentTo sort front p =
      ((PubSub.machine FitsTopic).after PubSub.empty (serviceOps sort front)).inbox p :=
    fun hfront p => sentTo_eq hsort hops hcross hfront p
  have hbefore : ∀ {front op}, front ++ [op] <+: ops → front <+: ops :=
    fun hfront => (List.prefix_append ..).trans hfront
  refine ⟨?_, ?_, ?_⟩
  · intro p
    rw [hsent List.prefix_rfl]
    exact PubSub.inbox_sublist _ p
  · intro front op t m hfront hasked p
    rw [hsent hfront, hsent (hbefore hfront), hasked, PubSub.inbox_concat]
    refine ⟨fun hdue => by rw [if_pos hdue], fun hdue => by rw [if_neg hdue, List.append_nil]⟩
  · intro front op hfront hother p
    rw [hsent hfront, hsent (hbefore hfront)]
    obtain ⟨asked, hasked⟩ := @serviceOps_concat sort front op
    cases asked with
    | none => simp [hasked]
    | some asked =>
      rw [hasked]
      refine PubSub.inbox_concat_other _ ?_ p
      rintro t m rfl
      exact hother t m hasked

/-- A client subscribes to "f", another one publishes. -/
def twoClients : List ServerOp :=
  .accept :: receiveAll 0 [0x10, 13, 0, 4, 0x4D, 0x51, 0x54, 0x54, 4, 2, 0, 60, 0, 1, 0x61] ++
    .addReply 0 :: receiveAll 0 [0x82, 6, 0, 1, 0, 1, 0x66, 0] ++
    .addReply 0 :: .accept ::
    receiveAll 1 [0x10, 13, 0, 4, 0x4D, 0x51, 0x54, 0x54, 4, 2, 0, 60, 0, 1, 0x62] ++
    .addReply 1 :: receiveAll 1 [0x30, 4, 0, 1, 0x66, 0x78]

theorem server_delivers_twoClients :
    Delivers id twoClients ∧ (sentTo id twoClients 0).map ControlPacket.body = [messageF.body] :=
  ⟨server_delivers id (fun _ => List.Subset.refl _) twoClients (by decide +kernel)
    (not_crossing_of_plain (by decide +kernel)), by decide +kernel⟩

end Acatl.Mqtt

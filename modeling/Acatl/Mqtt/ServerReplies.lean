/-
Acatl.Mqtt.ServerReplies — what each client is answered, whatever bytes come in
and in whatever order between the connections.

CONNECT, SUBSCRIBE and PINGREQ packets are answered, and nothing else is. The
answer to a packet is enqueued in a step of its own, and what others publish can
be enqueued for the same client before; among each other the answers keep the
order of the packets.

  §1  `answerTo`: the answer to a packet, and `processPacket_answer`;
  §2  what a run has asked and what it was answered;
  §3  `server_answers`.
-/
import Acatl.Mqtt.ServerDelivery

namespace Acatl.Mqtt

open Acatl.Lib

/-! ## §1 The answer to a packet -/

namespace Broker

/-- What a client waits for behind the packet. -/
def answerTo (packet : ControlPacket) : Option ControlPacket :=
  match packet.body with
  | .connect _ => some connack
  | .subscribe subs => some (suback subs)
  | .pingReq => some ⟨{ controlPacketType := .pingresp }, .pingResp⟩
  | .connAck _ | .publish _ | .subAck _ | .pingResp | .disconnect => none

theorem answerTo_type {packet answer : ControlPacket} (h : answerTo packet = some answer) :
    answer.header.controlPacketType ≠ .publish := by
  unfold answerTo at h
  split at h <;> simp only [Option.some.injEq, reduceCtorEq] at h <;> rw [← h] <;>
    simp [connack, suback]

/-- The result of a call: the answer to the packet, or none because there is none
or because the connection is not read any more. -/
def Answered (packet : ControlPacket) (errc : ErrorCode) : CallResult → Prop
  | .returned state reply => reply = answerTo packet ∨
      (reply = none ∧ (state = .close ∨ errc.isSome = true))
  | .fault _ => True

section

variable (b : Broker) (p : ProcessorId) (proc : Processor) {packet : ControlPacket}

theorem dispatch_answer (typed : packet.WellTyped) (ec : ErrorCode) :
    Answered packet (b.dispatch p proc packet ec).ec (b.dispatch p proc packet ec).result := by
  unfold ControlPacket.WellTyped at typed
  unfold dispatch
  cases ht : packet.header.controlPacketType with
  | connack | pingresp | suback | unsuback | puback | pubrec | pubcomp | pubrel | unsubscribe
  | none | reserved => exact .inr ⟨rfl, .inl rfl⟩
  | connect =>
    cases hbody : packet.body <;>
      simp [ht, hbody, MQTTParser.Handled, PacketBody.controlPacketType] at typed
    exact .inl (by simp [answerTo, hbody])
  | pingreq =>
    cases hbody : packet.body <;>
      simp [ht, hbody, MQTTParser.Handled, PacketBody.controlPacketType] at typed
    exact .inl (by simp [answerTo, hbody])
  | disconnect =>
    cases hbody : packet.body <;>
      simp [ht, hbody, MQTTParser.Handled, PacketBody.controlPacketType] at typed
    exact .inr ⟨rfl, .inl rfl⟩
  | subscribe =>
    cases hbody : packet.body <;>
      simp [ht, hbody, MQTTParser.Handled, PacketBody.controlPacketType] at typed
    rename_i subs
    dsimp only
    cases hs : proc.currentSession with
    | none => simp [doProcessSubscribe, hs, Answered]
    | some session =>
      rw [doProcessSubscribe_some b hs]
      dsimp only
      split
      · exact .inl (by simp [answerTo, hbody])
      · trivial
  | publish =>
    cases hbody : packet.body <;>
      simp [ht, hbody, MQTTParser.Handled, PacketBody.controlPacketType] at typed
    dsimp only
    unfold doProcessPublish
    dsimp only
    split
    · split
      · trivial
      · exact .inl (by simp [answerTo, hbody])
    · exact .inl (by simp [answerTo, hbody])

/-- **What a call answers.** -/
theorem processPacket_answer (typed : packet.WellTyped) (ec : ErrorCode) :
    Answered packet (b.processPacket p proc packet ec).ec
      (b.processPacket p proc packet ec).result := by
  unfold processPacket
  split
  · exact .inr ⟨rfl, .inl rfl⟩
  · split
    · split
      · exact .inr ⟨rfl, .inl rfl⟩
      · exact dispatch_answer b p proc typed ec
    · split
      · exact .inr ⟨rfl, .inl rfl⟩
      · exact dispatch_answer b p proc typed ec
    · exact .inr ⟨rfl, .inl rfl⟩

/-- What a call gives to the senders are copies of a PUBLISH packet. -/
theorem processPacket_sent (typed : packet.WellTyped) (ec : ErrorCode) (q : SenderId) : ∃ n,
    (b.processPacket p proc packet ec).broker.sent q = b.sent q ++ List.replicate n packet ∧
      (n ≠ 0 → packet.header.controlPacketType = .publish) := by
  have hasked := @processPacket_asked b p proc packet typed ec
  generalize (b.processPacket p proc packet ec).broker = b' at hasked ⊢
  generalize b.packetServiceOp p proc packet = asked at hasked
  cases hasked with
  | nothing | refused | attached | disconnected => exact ⟨0, (List.append_nil _).symm, by simp⟩
  | subscribed =>
    obtain ⟨objects, trees, hframe, -⟩ := b.doProcessSubscribe_frame proc _ _
    rw [hframe]
    exact ⟨0, by simp, by simp⟩
  | published htype =>
    obtain ⟨copies, hframe⟩ := b.doProcessPublish_frame packet _ _
    rw [hframe]
    exact ⟨copies q, rfl, fun _ => htype⟩

end

end Broker

/-! ## §2 Requests and answers -/

/-- The answer that a thread is about to enqueue. -/
def ThreadStatus.reply : ThreadStatus → List ControlPacket
  | .replying reply _ => [reply]
  | .reading | .returned | .nullPacket | .faulted _ => []

/-- The packet that the connection `p` hands to its processor. -/
def BrokerOp.request (p : ProcessorId) : BrokerOp → Option ControlPacket
  | .packet q received _ => if q = p then some received else none
  | .accept _ | .destroy _ | .expire _ | .removeSession _ => none

/-- Packets that somebody has published. -/
def onlyPublished (packets : List ControlPacket) : List ControlPacket :=
  packets.filter fun packet => packet.header.controlPacketType = .publish

/-- The other packets. -/
def notPublished (packets : List ControlPacket) : List ControlPacket :=
  packets.filter fun packet => packet.header.controlPacketType ≠ .publish

namespace Server

/-- The packets that the connection `p` has handed to its processor in a run. -/
def requests (sort : TopicFilters → TopicFilters) (ops : List ServerOp) (p : ProcessorId) :
    List ControlPacket :=
  (brokerOps sort ops).filterMap (BrokerOp.request p)

/-- Every request of a client, up to now, has its answer in what the connection
was given to send, or its thread is about to enqueue it; but the last one of a
thread that does not come back can be without. -/
def AnsweredTo (requests : List ControlPacket) (s : Server) (p : ProcessorId) : Prop :=
  ∃ unanswered, requests.filterMap Broker.answerTo =
      notPublished (s.enqueued p) ++ (s.threads p).reply ++ unanswered ∧
    unanswered.length ≤ 1 ∧ (¬ (s.threads p).Ended → unanswered = [])

section

variable {sort : TopicFilters → TopicFilters} {s : Server} {p : ProcessorId}

theorem onlyPublished_append (front back : List ControlPacket) :
    onlyPublished (front ++ back) = onlyPublished front ++ onlyPublished back :=
  List.filter_append ..

theorem notPublished_append (front back : List ControlPacket) :
    notPublished (front ++ back) = notPublished front ++ notPublished back :=
  List.filter_append ..

theorem filter_replicate_published {packet : ControlPacket} {n : Nat}
    (h : n ≠ 0 → packet.header.controlPacketType = .publish) :
    onlyPublished (List.replicate n packet) = List.replicate n packet ∧
      notPublished (List.replicate n packet) = [] := by
  have htype : ∀ p ∈ List.replicate n packet, p.header.controlPacketType = .publish := by
    intro p hp
    obtain ⟨hn, rfl⟩ := List.mem_replicate.mp hp
    exact h hn
  exact ⟨List.filter_eq_self.mpr fun p hp => by simp [htype p hp],
    List.filter_eq_nil_iff.mpr fun p hp => by simp [htype p hp]⟩

/-- What a call publishes is enqueued, and it is no answer. -/
theorem enqueued_setBroker {proc : Processor} {packet : ControlPacket} (typed : packet.WellTyped)
    (ec : ErrorCode) (q : SenderId) :
    let s' := s.setBroker (s.broker.processPacket p proc packet ec).broker
    notPublished (s'.enqueued q) = notPublished (s.enqueued q) ∧
      ∃ messages, onlyPublished (s'.enqueued q) = onlyPublished (s.enqueued q) ++ messages ∧
        s'.broker.sent q = s.broker.sent q ++ messages := by
  obtain ⟨n, hsent, htype⟩ := s.broker.processPacket_sent p proc typed ec q
  obtain ⟨honly, hnot⟩ := filter_replicate_published htype
  have henqueued : (s.setBroker (s.broker.processPacket p proc packet ec).broker).enqueued q =
      s.enqueued q ++ List.replicate n packet := by
    show s.enqueued q ++ List.drop _ _ = _
    rw [hsent, List.drop_left]
  intro s'
  rw [henqueued, notPublished_append, onlyPublished_append, honly, hnot, List.append_nil]
  exact ⟨rfl, _, rfl, hsent⟩

/-- A step in which the connection neither asks nor is answered. -/
theorem AnsweredTo.frame {s' : Server} {requests : List ControlPacket}
    (h : AnsweredTo requests s p)
    (henqueued : notPublished (s'.enqueued p) = notPublished (s.enqueued p))
    (hthread : s'.threads p = s.threads p) : AnsweredTo requests s' p := by
  obtain ⟨unanswered, hall, hone, hnone⟩ := h
  exact ⟨unanswered, by rw [henqueued, hthread, hall], hone, by rwa [hthread]⟩

/-- A thread that stops reading, and has no answer to enqueue. -/
theorem AnsweredTo.stop {requests : List ControlPacket} {status : ThreadStatus} {q : ProcessorId}
    (h : AnsweredTo requests s q) (hp : s.threads p = .reading) (hstatus : status.reply = []) :
    AnsweredTo requests (s.setThread p status) q := by
  by_cases hqp : q = p
  · subst hqp
    obtain ⟨unanswered, hall, hone, hnone⟩ := h
    obtain rfl := hnone (by rw [hp]; exact not_false)
    refine ⟨[], ?_, Nat.zero_le _, fun _ => rfl⟩
    rw [threads_setThread, if_pos rfl, hstatus, hall, hp]
    rfl
  · exact h.frame rfl ((threads_setThread ..).trans (if_neg hqp))

/-- What a thread is about to enqueue is an answer. -/
theorem AnsweredTo.reply_type {requests : List ControlPacket} {reply : ControlPacket}
    {goesOn : Bool} (h : AnsweredTo requests s p) (hp : s.threads p = .replying reply goesOn) :
    reply.header.controlPacketType ≠ .publish := by
  obtain ⟨unanswered, hall, -⟩ := h
  have hmem : reply ∈ requests.filterMap Broker.answerTo := by
    rw [hall, hp]
    simp [ThreadStatus.reply]
  obtain ⟨packet, -, hanswer⟩ := List.mem_filterMap.mp hmem
  exact Broker.answerTo_type hanswer

/-- The thread enqueues its answer. -/
theorem AnsweredTo.reply {requests : List ControlPacket} {reply : ControlPacket} {goesOn : Bool}
    (h : AnsweredTo requests s p) (hp : s.threads p = .replying reply goesOn)
    {status : ThreadStatus} (hstatus : status.reply = []) :
    AnsweredTo requests ({ s with
      enqueued := Function.update s.enqueued p (s.enqueued p ++ [reply]) }.setThread p
        status) p := by
  have hreply := h.reply_type hp
  obtain ⟨unanswered, hall, hone, hnone⟩ := h
  obtain rfl := hnone (by rw [hp]; exact not_false)
  refine ⟨[], ?_, Nat.zero_le _, fun _ => rfl⟩
  have henqueued : Function.update s.enqueued p (s.enqueued p ++ [reply]) p =
      s.enqueued p ++ [reply] := Function.update_self ..
  rw [threads_setThread, if_pos rfl, hstatus, hall, hp]
  show _ = notPublished (Function.update s.enqueued p (s.enqueued p ++ [reply]) p) ++ [] ++ []
  rw [henqueued, notPublished_append]
  simp [notPublished, hreply, ThreadStatus.reply]

/-- The processor takes a packet. -/
theorem AnsweredTo.handlePacket {requests : List ControlPacket} (h : AnsweredTo requests s p)
    (hp : s.threads p = .reading) {proc : Processor} {packet : ControlPacket}
    (typed : packet.WellTyped) :
    AnsweredTo (requests ++ [packet]) (s.handlePacket p proc packet none).2 p := by
  obtain ⟨unanswered, hall, hone, hnone⟩ := h
  obtain rfl := hnone (by rw [hp]; exact not_false)
  have hanswer := s.broker.processPacket_answer p proc typed none
  have henqueued : notPublished ((s.handlePacket p proc packet none).2.enqueued p) =
      notPublished (s.enqueued p) := (enqueued_setBroker typed none p).1
  have hthread : (s.handlePacket p proc packet none).2.threads p =
      next (s.broker.processPacket p proc packet none).result
        (s.broker.processPacket p proc packet none).ec := Function.update_self ..
  unfold AnsweredTo
  rw [List.filterMap_append, hall, henqueued, hthread, hp]
  generalize (s.broker.processPacket p proc packet none).result = result at hanswer ⊢
  generalize (s.broker.processPacket p proc packet none).ec = ec at hanswer ⊢
  have hlast : List.filterMap Broker.answerTo [packet] = (Broker.answerTo packet).toList := by
    cases hanswerTo : Broker.answerTo packet <;> simp [hanswerTo]
  have hshort : (Broker.answerTo packet).toList.length ≤ 1 := by
    cases Broker.answerTo packet <;> simp
  have hbefore : ThreadStatus.reading.reply = [] := rfl
  rw [hlast, hbefore, List.append_nil, List.append_nil]
  cases result with
  | fault fault =>
    exact ⟨(Broker.answerTo packet).toList, by simp [next, ThreadStatus.reply], hshort,
      fun hgoesOn => absurd trivial hgoesOn⟩
  | returned state reply =>
    rcases hanswer with rfl | ⟨rfl, hclosed⟩
    · refine ⟨[], ?_, Nat.zero_le _, fun _ => rfl⟩
      cases Broker.answerTo packet with
      | some reply => simp [next, ThreadStatus.reply]
      | none =>
        unfold next
        dsimp only
        split <;> simp [ThreadStatus.reply]
    · have hreturned : next (.returned state none) ec = .returned := by
        rcases hclosed with rfl | hec
        · simp [next]
        · obtain ⟨e, rfl⟩ := Option.isSome_iff_exists.mp hec
          simp [next]
      rw [hreturned]
      exact ⟨(Broker.answerTo packet).toList, by simp [ThreadStatus.reply], hshort,
        fun hgoesOn => absurd trivial hgoesOn⟩

/-- A step asks at most one thing, and the one it asks answers. -/
theorem Stepped.answers {op : ServerOp} {asked : Option BrokerOp} {s' : Server}
    (h : Stepped sort s op asked s') (hsort : ∀ filters, sort filters ⊆ filters)
    (hserved : s.Served)
    {requests : ProcessorId → List ControlPacket} (hanswered : ∀ q, AnsweredTo (requests q) s q)
    (hfresh : ∀ q, s.broker.nextProcessor ≤ q → requests q = []) (q : ProcessorId) :
    AnsweredTo (requests q ++ (asked.bind (BrokerOp.request q)).toList) s' q := by
  have hnothing : ∀ {asked : Option BrokerOp}, asked.bind (BrokerOp.request q) = none →
      requests q ++ (asked.bind (BrokerOp.request q)).toList = requests q := by
    intro asked hasked
    rw [hasked]
    exact List.append_nil _
  cases h with
  | accepted =>
    rw [hnothing rfl]
    by_cases hq : q = s.broker.nextProcessor
    · subst hq
      obtain ⟨unanswered, hall, -, -⟩ := hanswered s.broker.nextProcessor
      rw [hfresh _ le_rfl, List.filterMap_nil, eq_comm, List.append_eq_nil_iff,
        List.append_eq_nil_iff] at hall
      obtain ⟨⟨hnone, -⟩, -⟩ := hall
      refine ⟨[], ?_, Nat.zero_le _, fun _ => rfl⟩
      rw [hfresh _ le_rfl, threads_setThread, if_pos rfl]
      show _ = notPublished (s.enqueued s.broker.nextProcessor) ++ _ ++ _
      rw [hnone]
      rfl
    · exact (hanswered q).frame rfl ((threads_setThread ..).trans (if_neg hq))
  | more hp =>
    rw [hnothing rfl]
    exact (hanswered q).frame rfl rfl
  | @rejected p call hp =>
    rw [hnothing rfl]
    exact AnsweredTo.stop ((hanswered q).frame rfl rfl) hp rfl
  | @noPacket p call hp =>
    rw [hnothing rfl]
    exact AnsweredTo.stop ((hanswered q).frame rfl rfl) hp rfl
  | @processed p call proc packet hp hproc hret hpacket =>
    obtain ⟨packet', hsome, hwell⟩ := (hserved.checked p).consumed hsort hret
    obtain rfl : packet' = packet := Option.some.inj (hsome.symm.trans hpacket)
    have typed := hwell.wellTyped
    rw [packetOp_eq typed]
    by_cases hq : q = p
    · subst hq
      have hrequest : ((some (BrokerOp.packet q packet' typed)).bind (BrokerOp.request q)).toList =
          [packet'] := by simp [BrokerOp.request]
      rw [hrequest]
      exact AnsweredTo.handlePacket (s := s.setParser q _) ((hanswered q).frame rfl rfl) hp typed
    · rw [hnothing (by simp [BrokerOp.request, Ne.symm hq])]
      exact (hanswered q).frame (enqueued_setBroker (s := s.setParser p _) typed none q).1
        ((threads_setThread ..).trans (if_neg hq))
  | @replied p reply goesOn hp =>
    rw [hnothing rfl]
    by_cases hq : q = p
    · subst hq
      exact (hanswered q).reply hp (by cases goesOn <;> rfl)
    · refine (hanswered q).frame ?_ ((threads_setThread ..).trans (if_neg hq))
      exact congrArg notPublished (Function.update_of_ne hq ..)
  | @failed p hp =>
    rw [hnothing rfl]
    exact (hanswered q).stop hp rfl
  | expired | destroyed | removed =>
    rw [hnothing rfl]
    exact (hanswered q).frame rfl rfl

/-- What is published is enqueued and nothing else that looks like it. -/
theorem Stepped.published {op : ServerOp} {asked : Option BrokerOp} {s' : Server}
    (h : Stepped sort s op asked s') (hsort : ∀ filters, sort filters ⊆ filters)
    (hserved : s.Served)
    {requests : ProcessorId → List ControlPacket} (hanswered : ∀ q, AnsweredTo (requests q) s q)
    {q : ProcessorId} (hq : onlyPublished (s.enqueued q) = s.broker.sent q) :
    onlyPublished (s'.enqueued q) = s'.broker.sent q := by
  cases h with
  | accepted | more | rejected | noPacket | failed | expired | removed => exact hq
  | @processed p call proc packet hp hproc hret hpacket =>
    obtain ⟨packet', hsome, hwell⟩ := (hserved.checked p).consumed hsort hret
    obtain rfl : packet' = packet := Option.some.inj (hsome.symm.trans hpacket)
    obtain ⟨-, messages, honly, hsent⟩ :=
      @enqueued_setBroker (s.setParser p _) p proc _ hwell.wellTyped none q
    exact honly.trans ((congrArg (· ++ messages) hq).trans hsent.symm)
  | @replied p reply goesOn hp =>
    refine Eq.trans ?_ hq
    show onlyPublished (Function.update s.enqueued p (s.enqueued p ++ [reply]) q) = _
    by_cases hqp : q = p
    · subst hqp
      rw [Function.update_self, onlyPublished_append]
      simp [onlyPublished, (hanswered q).reply_type hp]
    · rw [Function.update_of_ne hqp]
  | @destroyed p hp =>
    cases hproc : s.broker.processors p with
    | none =>
      rw [Broker.machine_destroy_none hproc]
      exact hq
    | some proc =>
      rw [Broker.machine_destroy hproc]
      exact hq

/-- A connection that is not there asks nothing. -/
theorem Stepped.known {op : ServerOp} {asked : Option BrokerOp} {s' : Server}
    (h : Stepped sort s op asked s') (hsort : ∀ filters, sort filters ⊆ filters)
    (hserved : s.Served)
    {q : ProcessorId} (hq : s'.broker.nextProcessor ≤ q) :
    s.broker.nextProcessor ≤ q ∧ asked.bind (BrokerOp.request q) = none := by
  cases h with
  | accepted => exact ⟨(Nat.le_succ _).trans hq, rfl⟩
  | more | rejected | noPacket | replied | failed => exact ⟨hq, rfl⟩
  | @processed p call proc packet hp hproc hret hpacket =>
    obtain ⟨packet', hsome, hwell⟩ := (hserved.checked p).consumed hsort hret
    obtain rfl : packet' = packet := Option.some.inj (hsome.symm.trans hpacket)
    obtain ⟨hnext, -⟩ :=
      (Broker.processPacket_effect s.broker p proc hwell.wellTyped none).processors hproc
    have hq : (s.broker.processPacket p proc packet' none).broker.nextProcessor ≤ q := hq
    rw [hnext] at hq
    have hpq : p ≠ q := (hserved.consistent.known hproc).trans_le hq |>.ne
    rw [packetOp_eq hwell.wellTyped]
    exact ⟨hq, by simp [BrokerOp.request, hpq]⟩
  | expired => exact ⟨hq, rfl⟩
  | @destroyed p hp =>
    cases hproc : s.broker.processors p with
    | none =>
      rw [Broker.machine_destroy_none hproc] at hq
      exact ⟨hq, rfl⟩
    | some proc =>
      rw [Broker.machine_destroy hproc] at hq
      exact ⟨hq, rfl⟩
  | removed => exact ⟨hq, rfl⟩

/-- The requests and the answers of all connections. A connection that is not
there has asked nothing. -/
structure Answering (sort : TopicFilters → TopicFilters) (ops : List ServerOp) (s : Server) :
    Prop where
  served : s.Served
  answered : ∀ p, AnsweredTo (requests sort ops p) s p
  fresh : ∀ p, s.broker.nextProcessor ≤ p → requests sort ops p = []
  published : ∀ p, onlyPublished (s.enqueued p) = s.broker.sent p

theorem answering_new : Answering sort [] new where
  served := served_new
  answered _ := ⟨[], rfl, Nat.zero_le _, fun _ => rfl⟩
  fresh _ _ := rfl
  published _ := rfl

theorem requests_concat (ops : List ServerOp) (op : ServerOp) (p : ProcessorId) :
    requests sort (ops ++ [op]) p = requests sort ops p ++
      ((machine sort ((machine sort).after new ops) op).1.bind (BrokerOp.request p)).toList := by
  rw [requests, brokerOps_append, List.filterMap_append, requests]
  congr 1
  simp only [Machine.outputs_cons, Machine.outputs_nil, List.flatMap_cons, List.flatMap_nil,
    List.append_nil]
  cases (machine sort ((machine sort).after new ops) op).1 with
  | none => rfl
  | some asked => cases h : BrokerOp.request p asked <;> simp [h]

/-- **Every step keeps it.** -/
theorem Answering.step (hsort : ∀ filters, sort filters ⊆ filters) {ops : List ServerOp}
    (h : Answering sort ops ((machine sort).after new ops)) {op : ServerOp}
    (hop : ((machine sort).after new ops).Enabled sort op) :
    Answering sort (ops ++ [op]) (machine sort ((machine sort).after new ops) op).2 := by
  obtain ⟨hserved, hanswered, hfresh, hpublished⟩ := h
  have hstep := stepped hop
  refine ⟨hserved.step hsort hop, ?_, ?_, ?_⟩
  · intro q
    rw [requests_concat]
    exact hstep.answers hsort hserved hanswered hfresh q
  · intro q hq
    obtain ⟨hknown, hnone⟩ := hstep.known hsort hserved hq
    rw [requests_concat, hfresh q hknown, hnone]
    rfl
  · exact fun q => hstep.published hsort hserved hanswered (hpublished q)

theorem answering_after (hsort : ∀ filters, sort filters ⊆ filters) {ops : List ServerOp}
    (hops : (machine sort).Along (Enabled sort) new ops) :
    Answering sort ops ((machine sort).after new ops) :=
  Machine.history_along (Answering sort) answering_new (fun _ _ h hop => h.step hsort hop) hops

end

end Server

open Server

/-! ## §3 What a client is sent -/

/-- What the connection `p` was asked to send in a run: what others have published,
and the answers to its requests. At most one answer is missing, and none while the
connection reads. -/
structure SentAnswers (sort : TopicFilters → TopicFilters) (ops : List ServerOp) (p : ProcessorId) :
    Prop where
  published : onlyPublished (((machine sort).after new ops).enqueued p) = sentTo sort ops p
  answers : ∃ missing, (requests sort ops p).filterMap Broker.answerTo =
      notPublished (((machine sort).after new ops).enqueued p) ++ missing ∧ missing.length ≤ 1 ∧
    (((machine sort).after new ops).threads p = .reading → missing = []) ∧
    (∀ reply goesOn, ((machine sort).after new ops).threads p = .replying reply goesOn →
      missing = [reply])

/-- **Each request is answered, once and in order**, with the packet that belongs
to it, and what else a connection sends was published. -/
theorem server_answers (sort : TopicFilters → TopicFilters)
    (hsort : ∀ filters, sort filters ⊆ filters) (ops : List ServerOp)
    (hops : (machine sort).Along (Enabled sort) new ops) (p : ProcessorId) :
    SentAnswers sort ops p := by
  have hanswering := answering_after hsort hops
  obtain ⟨unanswered, hall, hone, hnone⟩ := hanswering.answered p
  refine ⟨hanswering.published p, _, by rw [hall, List.append_assoc], ?_, ?_, ?_⟩
  · cases hthread : ((machine sort).after new ops).threads p with
    | replying reply goesOn =>
      rw [hnone (by rw [hthread]; exact not_false)]
      simp [ThreadStatus.reply]
    | reading | returned | nullPacket | faulted => simpa [ThreadStatus.reply] using hone
  · intro hthread
    rw [hthread, hnone (by rw [hthread]; exact not_false)]
    rfl
  · intro reply goesOn hthread
    rw [hthread, hnone (by rw [hthread]; exact not_false)]
    rfl

/-- CONNACK and SUBACK, and then the message that the client has published itself. -/
theorem server_answers_oneClient : SentAnswers id oneClient 0 :=
  server_answers id (fun _ => List.Subset.refl _) oneClient (by decide +kernel) 0

end Acatl.Mqtt

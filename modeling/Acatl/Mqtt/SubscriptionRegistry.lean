/-
Acatl.Mqtt.SubscriptionRegistry — what a SUBSCRIBE packet leaves in the tree.

A SUBSCRIBE packet goes from its processor to the session, and from there to
the processor that made the session, which writes the tree with the session it
holds itself. That is the right one if both are the same processor, or if
nothing is left to write (`HandlerFits`).

`Registered` is the invariant: what the sessions remember is in the tree.

  `subscriptions_registered`  in the runs of such calls every SUBACK packet
                              comes with the filters in the tree.
-/
import Acatl.Mqtt.FilterOrder
import Acatl.Mqtt.SessionExclusivity
import Acatl.Mqtt.TreeCopies

namespace Acatl.Mqtt

open Acatl.Lib

/-! ## §1 The difference of two filter lists -/

section

variable {α : Type} (lt : α → α → Bool)

/-- An element is in the difference, or it is equivalent to one of the second
range. -/
theorem mem_differenceFrom (a : α) (as : List α) (next : List α → List α)
    (hnext : ∀ bs, ∀ x ∈ as, x ∈ next bs ∨ ∃ b ∈ bs, lt x b = false ∧ lt b x = false)
    (bs : List α) : ∀ x ∈ a :: as, x ∈ differenceFrom lt a as next bs ∨
      ∃ b ∈ bs, lt x b = false ∧ lt b x = false := by
  induction bs with
  | nil =>
    intro x hx
    exact .inl hx
  | cons b bs ih =>
    intro x hx
    unfold differenceFrom
    split
    · rcases List.mem_cons.mp hx with rfl | hx
      · exact .inl (List.mem_cons_self ..)
      · rcases hnext (b :: bs) x hx with hin | hequiv
        · exact .inl (List.mem_cons_of_mem _ hin)
        · exact .inr hequiv
    · rename_i hab
      split
      · rcases ih x hx with hin | ⟨b', hb', hequiv⟩
        · exact .inl hin
        · exact .inr ⟨b', List.mem_cons_of_mem _ hb', hequiv⟩
      · rename_i hba
        rcases List.mem_cons.mp hx with rfl | hx
        · exact .inr ⟨b, List.mem_cons_self .., by simpa using hab, by simpa using hba⟩
        · rcases hnext bs x hx with hin | ⟨b', hb', hequiv⟩
          · exact .inl hin
          · exact .inr ⟨b', List.mem_cons_of_mem _ hb', hequiv⟩

theorem mem_setDifference (as bs : List α) :
    ∀ x ∈ as, x ∈ setDifference lt as bs ∨ ∃ b ∈ bs, lt x b = false ∧ lt b x = false := by
  induction as generalizing bs with
  | nil => simp
  | cons a as ih => exact mem_differenceFrom lt a as _ (fun bs => ih bs) bs

theorem differenceFrom_subset (a : α) (as : List α) (next : List α → List α)
    (hnext : ∀ bs, next bs ⊆ as) (bs : List α) : differenceFrom lt a as next bs ⊆ a :: as := by
  induction bs with
  | nil => exact fun x hx => hx
  | cons b bs ih =>
    unfold differenceFrom
    split
    · exact List.cons_subset_cons a (hnext _)
    · split
      · exact ih
      · exact List.subset_cons_of_subset a (hnext _)

theorem setDifference_subset (as bs : List α) : setDifference lt as bs ⊆ as := by
  induction as generalizing bs with
  | nil => exact fun x hx => hx
  | cons a as ih => exact differenceFrom_subset lt a as _ (fun bs => ih bs) bs

end

/-- A filter is new to the session, or the session has it. -/
theorem mem_findDifference {fs current : TopicFilters} {f : TopicFilter} (hf : f ∈ fs) :
    f ∈ findDifference fs current ∨ f ∈ current := by
  rcases mem_setDifference TopicFilter.lt fs current f hf with hin | ⟨g, hg, hfg, hgf⟩
  · exact .inl hin
  · rw [TopicFilter.lt_connected hfg hgf]
    exact .inr hg

theorem findDifference_subset (fs current : TopicFilters) : findDifference fs current ⊆ fs :=
  setDifference_subset ..

/-! ## §2 What is expected -/

/-- The filters of a SUBSCRIBE packet. -/
def ControlPacket.filters (packet : ControlPacket) : TopicFilters :=
  match packet.body with
  | .subscribe subs => subs.topicFilters
  | _ => []

/-- The call has returned a SUBACK packet. -/
def BrokerAnswer.Acknowledges : BrokerAnswer → Prop
  | .processed (.returned _ (some reply)) _ => ∃ ack, reply.body = .subAck ack
  | _ => False

namespace Broker

/-- The sessions under a filter in the published tree. -/
def subscribers (b : Broker) (f : TopicFilter) : Finset SessionPtr :=
  b.trees.getCurrentSubscriptionTree.rootNode.sessionsAt f.levels

/-- In all of the run, a SUBACK packet comes with the filters in the tree,
under the session of the processor, and the tree stores no null session. -/
structure SubscriptionsRegistered (ops : List BrokerOp) : Prop where
  registered : ∀ front p packet typed, front ++ [.packet p packet typed] <+: ops →
    (machine (machine.after new front) (.packet p packet typed)).1.Acknowledges →
    ∃ subs s, packet.body = .subscribe subs ∧
      (machine.after new (front ++ [.packet p packet typed])).Holds p s ∧
      ∀ f ∈ subs.topicFilters,
        some s ∈ (machine.after new (front ++ [.packet p packet typed])).subscribers f
  noNull : ∀ front, front <+: ops → ∀ path,
    none ∉ (machine.after new front).trees.getCurrentSubscriptionTree.rootNode.sessionsAt path

/-- The filters of a SUBSCRIBE packet are valid, and the session has been made
by the processor that the packet is for, or has all of them already. -/
def HandlerFits (b : Broker) : BrokerOp → Prop
  | .packet p packet _ => packet.header.controlPacketType = .subscribe →
    ∀ proc ∈ b.processors p, b.senderExpired proc.packetSender = false →
    ∀ s ∈ proc.currentSession,
      (∀ f ∈ packet.filters, f.Valid) ∧
      ((b.manager.objects s).subscriptionHandler = p ∨
        (b.processors (b.manager.objects s).subscriptionHandler).isSome = true ∧
          findDifference packet.filters (b.manager.objects s).subscriptions = [])
  | _ => True

instance (b : Broker) : ∀ op, Decidable (b.HandlerFits op)
  | .packet p _ _ => inferInstanceAs (Decidable (_ → ∀ proc ∈ b.processors p, _ →
      ∀ s ∈ proc.currentSession, _ ∧ (_ ∨ _ ∧ _)))
  | .accept _ | .destroy _ | .expire _ | .removeSession _ => inferInstanceAs (Decidable True)

/-! ## §3 The invariant -/

/-- What the sessions remember is in the tree, and nothing is stored for no one. -/
structure Registered (b : Broker) : Prop where
  rooted : b.trees.tree.rootNode.Rooted
  noNull : ∀ path, none ∉ b.trees.tree.rootNode.sessionsAt path
  recorded : ∀ s, ∀ f ∈ (b.manager.objects s).subscriptions, some s ∈ b.subscribers f

theorem registered_new : new.Registered where
  rooted := SubscriptionNode.rooted_new
  noNull path := by
    intro hnone
    obtain ⟨f, hf, -⟩ := (grown_new.stored path none).mp hnone
    cases hf
  recorded s f hf := by cases hf

/-- What `Processor::addSubscriptions` does to the tree. -/
theorem mem_sessionsAt_addSubscriptions {b : Broker} (hrooted : b.trees.tree.rootNode.Rooted)
    (handler : Processor) {fs : TopicFilters} (hvalid : ∀ f ∈ fs, f.Valid) :
    (handler.addSubscriptions b fs).trees.tree.rootNode.Rooted ∧
    ∀ path y, y ∈ (handler.addSubscriptions b fs).trees.tree.rootNode.sessionsAt path ↔
      (path ≠ [] ∧ y ∈ b.trees.tree.rootNode.sessionsAt path) ∨
      (y = handler.currentSession ∧ ∃ f ∈ fs, f.levels = path) := by
  obtain ⟨hrooted', hmem⟩ := SubscriptionTree.mem_sessionsAt_addFilters hvalid
    handler.currentSession b.trees.tree.clone hrooted.clone
  refine ⟨hrooted', ?_⟩
  intro path y
  rw [← SubscriptionNode.mem_sessionsAt_clone hrooted]
  exact hmem path y

namespace Registered

variable {b b' : Broker}

theorem frame (h : b.Registered) (htrees : b'.trees = b.trees)
    (hobjects : ∀ s, ∀ f ∈ (b'.manager.objects s).subscriptions,
      f ∈ (b.manager.objects s).subscriptions) : b'.Registered := by
  refine ⟨?_, ?_, ?_⟩
  · rw [htrees]
    exact h.rooted
  · rw [htrees]
    exact h.noNull
  · intro s f hf
    unfold subscribers
    rw [htrees]
    exact h.recorded s f (hobjects s f hf)

/-- Sessions that come back keep their subscriptions. -/
theorem returned {session : SessionPtr} {s : SessionId} {f : TopicFilter}
    (hf : f ∈ ((b.manager.returnSession session).2.2.objects s).subscriptions) :
    f ∈ (b.manager.objects s).subscriptions := by
  obtain ⟨sender, hobject⟩ := b.manager.returnSession_object session s
  rwa [hobject] at hf

/-- A SUBSCRIBE packet for a session whose handler is `handler`. -/
theorem addSubscriptions (h : b.Registered) {s : SessionId} {handler : Processor}
    (hhandler : b.processors (b.manager.objects s).subscriptionHandler = some handler)
    {fs : TopicFilters} (hvalid : ∀ f ∈ fs, f.Valid)
    (hfits : handler.currentSession = some s ∨
      findDifference fs (b.manager.objects s).subscriptions = []) :
    (b.addSubscriptions s fs).1 = true ∧ (b.addSubscriptions s fs).2.Registered ∧
      ∀ f ∈ fs, some s ∈ (b.addSubscriptions s fs).2.subscribers f := by
  rw [addSubscriptions_live hhandler]
  obtain ⟨hrooted, hmem⟩ := mem_sessionsAt_addSubscriptions h.rooted handler
    (fun f hf => hvalid f (findDifference_subset fs (b.manager.objects s).subscriptions hf))
  -- what is written is written for `s`
  have hwritten : ∀ f ∈ findDifference fs (b.manager.objects s).subscriptions,
      handler.currentSession = some s := by
    intro f hf
    rcases hfits with hself | hnil
    · exact hself
    · rw [hnil] at hf
      cases hf
  have hold : ∀ t, ∀ f ∈ (b.manager.objects t).subscriptions,
      some t ∈ (handler.addSubscriptions b (findDifference fs
        (b.manager.objects s).subscriptions)).trees.tree.rootNode.sessionsAt f.levels := by
    intro t f hf
    exact (hmem f.levels _).mpr (.inl ⟨f.levels_ne_nil, h.recorded t f hf⟩)
  have hall : ∀ f ∈ ((b.manager.objects s).addSubscriptions fs).2.subscriptions,
      some s ∈ (handler.addSubscriptions b (findDifference fs
        (b.manager.objects s).subscriptions)).trees.tree.rootNode.sessionsAt f.levels := by
    intro f hf
    rcases List.mem_append.mp hf with hf | hf
    · exact hold s f hf
    · exact (hmem f.levels _).mpr (.inr ⟨(hwritten f hf).symm, f, hf, rfl⟩)
  refine ⟨rfl, ⟨hrooted, ?_, ?_⟩, ?_⟩
  · intro path hnone
    rcases (hmem path none).mp hnone with ⟨-, hnone⟩ | ⟨hnull, f, hf, -⟩
    · exact h.noNull path hnone
    · rw [hwritten f hf] at hnull
      cases hnull
  · intro t f hf
    change f ∈ (Function.update b.manager.objects s _ t).subscriptions at hf
    by_cases hts : t = s
    · subst hts
      rw [Function.update_self] at hf
      exact hall f hf
    · rw [Function.update_of_ne hts] at hf
      exact hold t f hf
  · intro f hf
    exact hall f (List.mem_append.mpr (mem_findDifference hf).symm)

/-- A SUBSCRIBE packet whose call fits is answered, and its filters are in the
tree. -/
theorem doProcessSubscribe (h : b.Registered) {p : ProcessorId}
    {proc : Processor} {packet : ControlPacket} {subs : SubscribeControlPacket} {s : SessionId}
    {typed : packet.WellTyped} (hp : b.processors p = some proc)
    (hs : proc.currentSession = some s)
    (htype : packet.header.controlPacketType = .subscribe) (hbody : packet.body = .subscribe subs)
    (hsender : b.senderExpired proc.packetSender = false)
    (hfits : b.HandlerFits (.packet p packet typed)) (ec : ErrorCode) :
    (b.doProcessSubscribe proc subs ec).broker.Registered ∧
      ∀ f ∈ subs.topicFilters, some s ∈ (b.doProcessSubscribe proc subs ec).broker.subscribers f := by
  obtain ⟨hvalid, hhandler⟩ := hfits htype proc hp hsender s hs
  have hfilters : packet.filters = subs.topicFilters := by simp [ControlPacket.filters, hbody]
  rw [hfilters] at hvalid hhandler
  rw [doProcessSubscribe_some b hs]
  rcases hhandler with rfl | ⟨hlive, hnil⟩
  · exact (h.addSubscriptions hp hvalid (.inl hs)).2
  · obtain ⟨handler, hhandler⟩ := Option.isSome_iff_exists.mp hlive
    exact (h.addSubscriptions hhandler hvalid (.inr hnil)).2

/-- **Every operation keeps it, if a SUBSCRIBE packet has the right handler.** -/
theorem step (h : b.Registered) (op : BrokerOp) (hfits : b.HandlerFits op) :
    (machine b op).2.Registered := by
  have hstep := stepped b op
  generalize (machine b op).1 = answer at hstep
  generalize (machine b op).2 = b' at hstep ⊢
  cases hstep with
  | accepted => exact h.frame rfl fun _ _ hf => hf
  | @processed p proc packet typed _ _ _ hp heffect =>
    cases heffect with
    | unchanged => exact h
    | published => exact h.frame rfl fun _ _ hf => hf
    | @connected connect =>
      refine h.frame rfl ?_
      intro s f hf
      change f ∈ ((b.manager.getSession connect.clientId proc.packetSender p).2.2.objects
        s).subscriptions at hf
      rcases b.manager.getSession_object connect.clientId proc.packetSender p s with
        ⟨sender, hobject⟩ | ⟨-, hobject⟩
      · rwa [hobject] at hf
      · rw [hobject] at hf
        cases hf
    | subscribed htype hbody hstatus hsender =>
      cases hs : proc.currentSession with
      | none =>
        unfold Broker.doProcessSubscribe
        rw [hs]
        exact h
      | some s => exact (h.doProcessSubscribe hp hs htype hbody hsender hfits _).1
    | disconnected =>
      refine h.frame rfl ?_
      intro s f hf
      exact returned hf
  | destroyed =>
    refine h.frame rfl ?_
    intro s f hf
    exact returned hf
  | idle => exact h
  | expired => exact h.frame rfl fun _ _ hf => hf
  | @removed clientId =>
    refine h.frame rfl ?_
    intro s f hf
    change f ∈ ((b.manager.removeSession clientId none).2.2.objects s).subscriptions at hf
    rwa [SessionManager.removeSession_objects] at hf

end Registered

/-- Every reachable state of a run whose calls fit. -/
theorem registered_after {ops : List BrokerOp} (hops : machine.Along HandlerFits new ops) :
    (machine.after new ops).Registered := by
  exact Machine.inv_along Registered (fun _ op h hfits => h.step op hfits) registered_new hops

/-- The calls that acknowledge are those of SUBSCRIBE packets. -/
theorem subscribes_of_acknowledges {b : Broker} {p : ProcessorId} {packet : ControlPacket}
    {typed : packet.WellTyped} (h : (machine b (.packet p packet typed)).1.Acknowledges) :
    ∃ proc subs s ec, b.processors p = some proc ∧ proc.currentSession = some s ∧
      packet.header.controlPacketType = .subscribe ∧ packet.body = .subscribe subs ∧
      b.senderExpired proc.packetSender = false ∧
      (machine b (.packet p packet typed)).2 = (b.doProcessSubscribe proc subs ec).broker := by
  have hstep := stepped b (.packet p packet typed)
  generalize (machine b (.packet p packet typed)).1 = answer at h hstep
  generalize (machine b (.packet p packet typed)).2 = b' at hstep ⊢
  cases hstep with
  | idle => exact h.elim
  | @processed _ proc _ _ result _ _ hp heffect =>
    cases heffect with
    | unchanged hresult =>
      cases result with
      | fault _ => exact h.elim
      | returned state reply =>
        cases reply with
        | none => exact h.elim
        | some reply =>
          obtain ⟨ack, hbody⟩ := h
          have hping : reply.body = .pingResp := hresult
          simp [hping] at hbody
    | published => exact h.elim
    | connected =>
      obtain ⟨ack, hbody⟩ := h
      simp [connack] at hbody
    | subscribed htype hbody hstatus hsender =>
      cases hs : proc.currentSession with
      | none =>
        simp only [doProcessSubscribe, hs] at h
        exact h.elim
      | some s => exact ⟨proc, _, s, _, hp, hs, htype, hbody, hsender, rfl⟩
    | disconnected => exact h.elim

end Broker

open Broker

/-- **Subscriptions are registered for the subscriber** in the runs in which
every SUBSCRIBE packet has valid filters and meets a session that its own
processor has made, or one that has all its filters. -/
theorem subscriptions_registered {ops : List BrokerOp}
    (hops : machine.Along HandlerFits new ops) : SubscriptionsRegistered ops := by
  refine ⟨?_, ?_⟩
  · intro front p packet typed hfront hacknowledges
    obtain ⟨proc, subs, s, ec, hp, hs, htype, hbody, hsender, hstep⟩ :=
      subscribes_of_acknowledges hacknowledges
    have hbefore := registered_after
      (Machine.along_left ((List.prefix_append ..).trans hfront) hops)
    have hfits := Machine.along_iff_steps.mp hops front _ hfront
    have hafter : machine.after new (front ++ [.packet p packet typed]) =
        ((machine.after new front).doProcessSubscribe proc subs ec).broker := by
      rw [Machine.after_append]
      exact hstep
    rw [hafter]
    refine ⟨subs, s, hbody, ?_, ?_⟩
    · obtain ⟨objects, trees, hframe, -⟩ :=
        (machine.after new front).doProcessSubscribe_frame proc subs ec
      rw [hframe]
      exact ⟨proc, hp, hs⟩
    · exact (hbefore.doProcessSubscribe hp hs htype hbody hsender hfits ec).2
  · intro front hfront
    exact (registered_after (Machine.along_left hfront hops)).noNull

/-- Packets of a client "a" that subscribes to "f" and "g". -/
def clientA : ControlPacket := ⟨{ controlPacketType := .connect }, .connect { clientId := [0x61] }⟩

def filterFG : ControlPacket :=
  ⟨{ controlPacketType := .subscribe, flags := 0x02 },
    .subscribe { packetIdentifier := 1, topicFilters := [⟨[0x66], .atMostOnce⟩, ⟨[0x67], .exactlyOnce⟩] }⟩

def goodbye : ControlPacket := ⟨{ controlPacketType := .disconnect }, .disconnect⟩

/-- The client connects, leaves, its session is removed, and it subscribes in
another one; then it connects once more and asks for the same again. -/
def resubscribing : List BrokerOp :=
  [.accept (some 0), .packet 0 clientA (by decide), .packet 0 goodbye (by decide),
    .removeSession [0x61], .accept (some 1), .packet 1 clientA (by decide),
    .packet 1 filterFG (by decide), .packet 1 goodbye (by decide), .accept (some 2),
    .packet 2 clientA (by decide), .packet 2 filterFG (by decide)]

theorem subscriptions_registered_resubscribing : SubscriptionsRegistered resubscribing :=
  subscriptions_registered (by decide)

/-- A client that comes back through another processor: what it subscribes to
is stored for the null session of the first processor, and acknowledged. -/
theorem subscription_of_no_one :
    let ops : List BrokerOp := [.accept (some 0), .packet 0 clientA (by decide),
      .packet 0 goodbye (by decide), .accept (some 1), .packet 1 clientA (by decide)]
    (machine (machine.after new ops) (.packet 1 filterFG (by decide))).1 =
      .processed (.returned .keep (some (suback
        { packetIdentifier := 1, topicFilters := [⟨[0x66], .atMostOnce⟩, ⟨[0x67], .exactlyOnce⟩] })))
        none ∧
    (machine.after new (ops ++ [.packet 1 filterFG (by decide)])).subscribers
      ⟨[0x66], .atMostOnce⟩ = {none} ∧
    ¬ SubscriptionsRegistered (ops ++ [.packet 1 filterFG (by decide)]) := by
  intro ops
  have hsubscribers : (machine.after new (ops ++ [.packet 1 filterFG (by decide)])).subscribers
      ⟨[0x66], .atMostOnce⟩ = {none} := by decide
  refine ⟨by decide, hsubscribers, ?_⟩
  intro h
  have hnull : none ∈ (machine.after new (ops ++ [.packet 1 filterFG (by decide)])).subscribers
      ⟨[0x66], .atMostOnce⟩ := by
    rw [hsubscribers]
    exact Finset.mem_singleton_self none
  exact h.noNull _ List.prefix_rfl (TopicFilter.levels ⟨[0x66], .atMostOnce⟩) hnull

end Acatl.Mqtt

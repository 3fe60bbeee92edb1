/-
Acatl.Mqtt.SessionExclusivity — a session belongs to one connection at a time.

`Effect` says what a call of `processPacket` can do, in five cases, and
`Stepped` what a step of the broker can do. The invariant `Consistent` relates
the pointer in each processor to the entry of the session manager; every
operation of a broker keeps it.

  `sessions_exclusive`   in every state that a broker can reach, the holders,
                         the entries in use and the senders fit each other,
                         and `removeSession` takes no session from its holder.
-/
import Acatl.Mqtt.Processor

namespace Acatl.Mqtt

open Acatl.Lib

/-! ## §1 What a call can do -/

/-- The results of calls that neither connect nor subscribe. -/
def CallResult.Plain : CallResult → Prop
  | .returned _ none => True
  | .returned _ (some packet) => packet.body = .pingResp
  | .fault f => f = .nullSessionInTree

namespace Broker

/-- What a call of `processPacket` by `p`, with the members `proc`, can do. -/
inductive Effect (b : Broker) (p : ProcessorId) (proc : Processor) (packet : ControlPacket) :
    CallResult → Broker → Prop
  | unchanged {result : CallResult} (hresult : result.Plain) : Effect b p proc packet result b
  | published {sent : SenderId → List ControlPacket} :
      Effect b p proc packet (.returned .keep none) { b with sent := sent }
  | connected {connect : ConnectControlPacket}
      (htype : packet.header.controlPacketType = .connect) (hbody : packet.body = .connect connect)
      (hstatus : proc.status = .none) (hsender : b.senderExpired proc.packetSender = false) :
      Effect b p proc packet (.returned .keep (some connack))
        (b.doProcessConnect p { proc with status := .connected } connect).broker
  | subscribed {subs : SubscribeControlPacket} {ec : ErrorCode}
      (htype : packet.header.controlPacketType = .subscribe)
      (hbody : packet.body = .subscribe subs) (hstatus : proc.status = .connected)
      (hsender : b.senderExpired proc.packetSender = false) :
      Effect b p proc packet (b.doProcessSubscribe proc subs ec).result
        (b.doProcessSubscribe proc subs ec).broker
  | disconnected (hstatus : proc.status = .connected) :
      Effect b p proc packet (.returned .close none)
        (b.doProcessDisconnect p { proc with status := .disconnected } none).broker

/-- What the status change before `doProcess` has written, `doProcess` writes again. -/
theorem doProcessConnect_setProcessor (b : Broker) (p : ProcessorId) (proc proc' : Processor)
    (connect : ConnectControlPacket) :
    (b.setProcessor p proc').doProcessConnect p proc connect =
      b.doProcessConnect p proc connect := by
  simp [doProcessConnect, setProcessor]

theorem doProcessDisconnect_setProcessor (b : Broker) (p : ProcessorId) (proc proc' : Processor)
    (ec : ErrorCode) :
    (b.setProcessor p proc').doProcessDisconnect p proc ec =
      b.doProcessDisconnect p proc ec := by
  simp [doProcessDisconnect, setProcessor]

section

variable (b : Broker) (p : ProcessorId) {proc : Processor} {packet : ControlPacket}

/-- A packet of a connected processor. -/
theorem dispatch_effect (typed : packet.WellTyped) (hstatus : proc.status = .connected)
    (hsender : b.senderExpired proc.packetSender = false)
    (htype : packet.header.controlPacketType ≠ .connect) (ec : ErrorCode) :
    Effect b p proc packet (b.dispatch p proc packet ec).result
      (b.dispatch p proc packet ec).broker := by
  unfold ControlPacket.WellTyped at typed
  unfold dispatch
  cases ht : packet.header.controlPacketType with
  | connect => exact absurd ht htype
  | connack | pingresp | suback | unsuback | puback | pubrec | pubcomp | pubrel | unsubscribe
  | none | reserved => exact .unchanged trivial
  | pingreq =>
    cases hbody : packet.body <;>
      simp [ht, hbody, MQTTParser.Handled, PacketBody.controlPacketType] at typed
    exact .unchanged rfl
  | disconnect =>
    cases hbody : packet.body <;>
      simp [ht, hbody, MQTTParser.Handled, PacketBody.controlPacketType] at typed
    dsimp only
    rw [doProcessDisconnect_setProcessor]
    exact .disconnected hstatus
  | subscribe =>
    cases hbody : packet.body <;>
      simp [ht, hbody, MQTTParser.Handled, PacketBody.controlPacketType] at typed
    exact .subscribed ht hbody hstatus hsender
  | publish =>
    cases hbody : packet.body <;>
      simp [ht, hbody, MQTTParser.Handled, PacketBody.controlPacketType] at typed
    unfold doProcessPublish
    dsimp only
    split
    · split
      · exact .unchanged rfl
      · exact .published
    · exact .unchanged trivial

/-- **What a call of `processPacket` can do.** -/
theorem processPacket_effect (proc : Processor) (typed : packet.WellTyped) (ec : ErrorCode) :
    Effect b p proc packet (b.processPacket p proc packet ec).result
      (b.processPacket p proc packet ec).broker := by
  unfold processPacket
  split
  · exact .unchanged trivial
  rename_i hsender
  cases hstatus : proc.status with
  | none =>
    dsimp only
    split
    · exact .unchanged trivial
    · rename_i htype
      rw [not_not] at htype
      unfold dispatch
      cases hbody : packet.body <;>
        simp [ControlPacket.WellTyped, htype, hbody, MQTTParser.Handled,
          PacketBody.controlPacketType] at typed
      simp only [htype]
      rw [doProcessConnect_setProcessor]
      exact .connected htype hbody hstatus (by simpa using hsender)
  | connected =>
    dsimp only
    split
    · exact .unchanged trivial
    · rename_i htype
      exact dispatch_effect b p typed hstatus (by simpa using hsender) htype ec
  | disconnected => exact .unchanged trivial

end

/-- What a step of a broker can do. -/
inductive Stepped (b : Broker) : BrokerOp → BrokerAnswer → Broker → Prop
  | accepted {sender : Option SenderId} :
      Stepped b (.accept sender) .done
        { b.setProcessor b.nextProcessor { packetSender := sender } with
          nextProcessor := b.nextProcessor + 1 }
  | processed {p : ProcessorId} {proc : Processor} {packet : ControlPacket}
      {typed : packet.WellTyped} {result : CallResult} {ec : ErrorCode} {b' : Broker}
      (hp : b.processors p = some proc) (heffect : Effect b p proc packet result b') :
      Stepped b (.packet p packet typed) (.processed result ec) b'
  | destroyed {p : ProcessorId} {proc : Processor} (hp : b.processors p = some proc) :
      Stepped b (.destroy p) .done (b.destroy p proc)
  -- the processor does not exist
  | idle {op : BrokerOp} : Stepped b op .done b
  | expired {sender : SenderId} :
      Stepped b (.expire sender) .done { b with expired := Function.update b.expired sender true }
  | removed {clientId : Bytes} {result : Bool} {ec : ErrorCode} :
      Stepped b (.removeSession clientId) (.removed result ec)
        { b with manager := (b.manager.removeSession clientId none).2.2 }

theorem stepped (b : Broker) (op : BrokerOp) : Stepped b op (machine b op).1 (machine b op).2 := by
  cases op with
  | accept sender => exact .accepted
  | packet p packet typed =>
    cases hp : b.processors p with
    | none =>
      rw [machine_packet_none hp]
      exact .idle
    | some proc =>
      rw [machine_packet hp]
      exact .processed hp (processPacket_effect b p proc typed none)
  | destroy p =>
    cases hp : b.processors p with
    | none =>
      rw [machine_destroy_none hp]
      exact .idle
    | some proc =>
      rw [machine_destroy hp]
      exact .destroyed hp
  | expire sender => exact .expired
  | removeSession clientId => exact .removed

/-! ## §2 The invariant -/

/-- The processor `p` holds the session `s`. -/
def Holds (b : Broker) (p : ProcessorId) (s : SessionId) : Prop :=
  ∃ proc, b.processors p = some proc ∧ proc.currentSession = some s

/-- The pointers in the processors, the entries of the session manager and the
senders fit each other. -/
structure Consistent (b : Broker) : Prop where
  fresh : ∀ p, b.nextProcessor ≤ p → b.processors p = none
  stored : ∀ c wrapper, b.manager.sessions c = some wrapper →
    wrapper.session < b.manager.next ∧ (b.manager.objects wrapper.session).clientId = c
  held : ∀ p proc s, b.processors p = some proc → proc.currentSession = some s →
    b.manager.sessions (b.manager.objects s).clientId = some ⟨s, true⟩ ∧
      (b.manager.objects s).sender = proc.packetSender
  unique : ∀ p q s, b.Holds p s → b.Holds q s → p = q
  lent : ∀ c s, b.manager.sessions c = some ⟨s, true⟩ → ∃ p, b.Holds p s
  idle : ∀ c s, b.manager.sessions c = some ⟨s, false⟩ → (b.manager.objects s).sender = none
  connected : ∀ p proc, b.processors p = some proc → proc.status ≠ .connected →
    proc.currentSession = none

theorem consistent_new : new.Consistent := by
  refine ⟨fun _ _ => rfl, ?_, ?_, ?_, ?_, ?_, ?_⟩
  · intro c wrapper h; exact absurd h (by simp [new])
  · intro p proc s h; exact absurd h (by simp [new])
  · intro p q s h; obtain ⟨proc, h, -⟩ := h; exact absurd h (by simp [new])
  · intro c s h; exact absurd h (by simp [new])
  · intro c s h; exact absurd h (by simp [new])
  · intro p proc h; exact absurd h (by simp [new])

/-- The processor `p` changes, comes or goes, and no other. -/
structure OnlyAt (p : ProcessorId) (b b' : Broker) : Prop where
  other : ∀ q, q ≠ p → b'.processors q = b.processors q
  known : p < b'.nextProcessor
  next : b.nextProcessor ≤ b'.nextProcessor

namespace Consistent

variable {b b' : Broker}

/-- Changes to the tree, to the subscriptions of a session and to what was
sent keep the invariant. -/
theorem frame (h : b.Consistent) (hprocessors : b'.processors = b.processors)
    (hnextProcessor : b'.nextProcessor = b.nextProcessor)
    (hsessions : b'.manager.sessions = b.manager.sessions)
    (hnext : b'.manager.next = b.manager.next)
    (hobjects : ∀ s, (b'.manager.objects s).clientId = (b.manager.objects s).clientId ∧
      (b'.manager.objects s).sender = (b.manager.objects s).sender) : b'.Consistent := by
  have hholds : ∀ p s, b'.Holds p s ↔ b.Holds p s := by simp [Holds, hprocessors]
  refine ⟨?_, ?_, ?_, ?_, ?_, ?_, ?_⟩
  · rw [hprocessors, hnextProcessor]
    exact h.fresh
  · intro c wrapper hw
    rw [hsessions] at hw
    rw [hnext, (hobjects _).1]
    exact h.stored c wrapper hw
  · intro p proc s hp hs
    rw [hprocessors] at hp
    rw [hsessions, (hobjects s).1, (hobjects s).2]
    exact h.held p proc s hp hs
  · intro p q s hp hq
    exact h.unique p q s ((hholds p s).mp hp) ((hholds q s).mp hq)
  · intro c s hw
    rw [hsessions] at hw
    obtain ⟨p, hp⟩ := h.lent c s hw
    exact ⟨p, (hholds p s).mpr hp⟩
  · intro c s hw
    rw [hsessions] at hw
    rw [(hobjects s).2]
    exact h.idle c s hw
  · rw [hprocessors]
    exact h.connected

/-- A processor that is there has been numbered. -/
theorem known (h : b.Consistent) {p : ProcessorId} {proc : Processor}
    (hp : b.processors p = some proc) : p < b.nextProcessor := by
  by_contra hle
  simp [h.fresh p (Nat.not_lt.mp hle)] at hp

/-- Two processors hold different sessions, of different clients. -/
theorem apart (h : b.Consistent) {p q : ProcessorId} (hqp : q ≠ p) {s t : SessionId}
    (hp : b.Holds p s) (hq : b.Holds q t) :
    t ≠ s ∧ (b.manager.objects t).clientId ≠ (b.manager.objects s).clientId := by
  have hts : t ≠ s := by
    intro hts
    subst hts
    exact hqp (h.unique q p t hq hp)
  refine ⟨hts, fun hcc => hts ?_⟩
  obtain ⟨proc, hp, hs⟩ := hp
  obtain ⟨qroc, hq, ht⟩ := hq
  have hheld := (h.held q qroc t hq ht).1
  rw [hcc, (h.held p proc s hp hs).1] at hheld
  exact (congrArg SessionWrapper.session (Option.some.inj hheld)).symm

section

variable {p : ProcessorId} (h : b.Consistent) (hat : OnlyAt p b b')

include h hat

/-- The numbers that are free stay free. -/
theorem fresh_onlyAt : ∀ q, b'.nextProcessor ≤ q → b'.processors q = none := by
  intro q hq
  rw [hat.other q (lt_of_lt_of_le hat.known hq).ne']
  exact h.fresh q (le_trans hat.next hq)

theorem connected_onlyAt (hself : ∀ proc, b'.processors p = some proc →
    proc.status ≠ .connected → proc.currentSession = none) :
    ∀ q proc, b'.processors q = some proc → proc.status ≠ .connected →
      proc.currentSession = none := by
  intro q proc hq hstatus
  by_cases hqp : q = p
  · subst hqp
    exact hself proc hq hstatus
  · rw [hat.other q hqp] at hq
    exact h.connected q proc hq hstatus

end

/-- The holder of a session, when `p` holds none any more. -/
theorem holder_onlyAt {p : ProcessorId} (hat : OnlyAt p b b')
    (hself : ∀ proc, b'.processors p = some proc → proc.currentSession = none) {q : ProcessorId}
    {qroc : Processor} {t : SessionId} (hq : b'.processors q = some qroc)
    (ht : qroc.currentSession = some t) : q ≠ p ∧ b.processors q = some qroc := by
  have hqp : q ≠ p := by
    intro hqp
    subst hqp
    simp [hself qroc hq] at ht
  exact ⟨hqp, (hat.other q hqp).symm.trans hq⟩

/-- A processor that holds no session changes, comes or goes. -/
theorem withoutSession (h : b.Consistent) {p : ProcessorId} (hold : ∀ s, ¬ b.Holds p s)
    (hmanager : b'.manager = b.manager)
    (hself : ∀ proc, b'.processors p = some proc → proc.currentSession = none)
    (hat : OnlyAt p b b') : b'.Consistent := by
  refine ⟨h.fresh_onlyAt hat, ?_, ?_, ?_, ?_, ?_,
    h.connected_onlyAt hat fun proc hp _ => hself proc hp⟩
  · rw [hmanager]
    exact h.stored
  · intro q proc s hq hs
    rw [hmanager]
    exact h.held q proc s (holder_onlyAt hat hself hq hs).2 hs
  · intro q q' s ⟨proc, hq, hs⟩ ⟨proc', hq', hs'⟩
    exact h.unique q q' s ⟨proc, (holder_onlyAt hat hself hq hs).2, hs⟩
      ⟨proc', (holder_onlyAt hat hself hq' hs').2, hs'⟩
  · intro c s hw
    rw [hmanager] at hw
    obtain ⟨q, proc, hq, hs⟩ := h.lent c s hw
    have hqp : q ≠ p := by
      intro hqp
      subst hqp
      exact hold s ⟨proc, hq, hs⟩
    exact ⟨q, proc, (hat.other q hqp).trans hq, hs⟩
  · rw [hmanager]
    exact h.idle

/-- The session manager lends a session: `s` is new, or stored under `c` and
not in use. -/
theorem lend (h : b.Consistent) {p : ProcessorId} {proc : Processor} {c : Bytes} {s : SessionId}
    (hold : ∀ t, ¬ b.Holds p t) (hc : ∀ t, b.manager.sessions c ≠ some ⟨t, true⟩)
    (hs : ∀ c' wrapper, b.manager.sessions c' = some wrapper → wrapper.session = s → c' = c)
    (hsessions : b'.manager.sessions = Function.update b.manager.sessions c (some ⟨s, true⟩))
    (hobject : (b'.manager.objects s).clientId = c ∧
      (b'.manager.objects s).sender = proc.packetSender)
    (hobjects : ∀ t, t ≠ s → b'.manager.objects t = b.manager.objects t)
    (hnext : s < b'.manager.next ∧ b.manager.next ≤ b'.manager.next)
    (hself : b'.processors p = some proc) (hproc : proc.status = .connected ∧
      proc.currentSession = some s) (hat : OnlyAt p b b') : b'.Consistent := by
  -- no session held before is `s`, and none is stored under `c`
  have hkept : ∀ q qroc t, b.processors q = some qroc → qroc.currentSession = some t →
      t ≠ s ∧ (b.manager.objects t).clientId ≠ c := by
    intro q qroc t hq ht
    have hheld := (h.held q qroc t hq ht).1
    refine ⟨?_, ?_⟩
    · intro hts
      rw [hs _ _ hheld hts] at hheld
      exact hc t hheld
    · intro htc
      rw [htc] at hheld
      exact hc t hheld
  -- entries other than the one for `c` are those of `b`, and do not point to `s`
  have hentry : ∀ c' wrapper, b'.manager.sessions c' = some wrapper → c' ≠ c →
      b.manager.sessions c' = some wrapper ∧ wrapper.session ≠ s := by
    intro c' wrapper hw hcc
    rw [hsessions, Function.update_of_ne hcc] at hw
    exact ⟨hw, fun hws => hcc (hs c' wrapper hw hws)⟩
  have hnew : b'.manager.sessions c = some ⟨s, true⟩ := by rw [hsessions, Function.update_self]
  have hholder : ∀ q qroc t, b'.processors q = some qroc → qroc.currentSession = some t →
      (q = p ∧ t = s) ∨ (q ≠ p ∧ b.processors q = some qroc) := by
    intro q qroc t hq ht
    by_cases hqp : q = p
    · subst hqp
      obtain rfl : proc = qroc := by simpa [hself] using hq
      exact .inl ⟨rfl, by simpa [hproc.2] using ht.symm⟩
    · exact .inr ⟨hqp, (hat.other q hqp).symm.trans hq⟩
  refine ⟨h.fresh_onlyAt hat, ?_, ?_, ?_, ?_, ?_, h.connected_onlyAt hat ?_⟩
  · intro c' wrapper hw
    by_cases hcc : c' = c
    · subst hcc
      obtain rfl : (⟨s, true⟩ : SessionWrapper) = wrapper := by simpa [hnew] using hw
      exact ⟨hnext.1, hobject.1⟩
    · obtain ⟨hw, hne⟩ := hentry c' wrapper hw hcc
      rw [hobjects _ hne]
      exact ⟨lt_of_lt_of_le (h.stored c' wrapper hw).1 hnext.2, (h.stored c' wrapper hw).2⟩
  · intro q qroc t hq ht
    rcases hholder q qroc t hq ht with ⟨rfl, rfl⟩ | ⟨-, hq'⟩
    · obtain rfl : proc = qroc := by simpa [hself] using hq
      rw [hobject.1]
      exact ⟨hnew, hobject.2⟩
    · obtain ⟨hts, htc⟩ := hkept q qroc t hq' ht
      rw [hobjects t hts, hsessions, Function.update_of_ne htc]
      exact h.held q qroc t hq' ht
  · intro q q' t ⟨qroc, hq, ht⟩ ⟨qroc', hq', ht'⟩
    rcases hholder q qroc t hq ht with ⟨rfl, rfl⟩ | ⟨-, hold₁⟩
    · rcases hholder q' qroc' t hq' ht' with ⟨rfl, -⟩ | ⟨-, hold₂⟩
      · rfl
      · exact absurd rfl (hkept q' qroc' t hold₂ ht').1
    · rcases hholder q' qroc' t hq' ht' with ⟨rfl, rfl⟩ | ⟨-, hold₂⟩
      · exact absurd rfl (hkept q qroc t hold₁ ht).1
      · exact h.unique q q' t ⟨qroc, hold₁, ht⟩ ⟨qroc', hold₂, ht'⟩
  · intro c' t hw
    by_cases hcc : c' = c
    · subst hcc
      obtain rfl : s = t := by simpa [hnew] using hw
      exact ⟨p, proc, hself, hproc.2⟩
    · obtain ⟨q, qroc, hq, ht⟩ := h.lent c' t (hentry c' _ hw hcc).1
      have hqp : q ≠ p := by
        intro hqp
        subst hqp
        exact hold t ⟨qroc, hq, ht⟩
      exact ⟨q, qroc, (hat.other q hqp).trans hq, ht⟩
  · intro c' t hw
    by_cases hcc : c' = c
    · subst hcc
      simp [hnew] at hw
    · obtain ⟨hw, hne⟩ := hentry c' _ hw hcc
      rw [hobjects t hne]
      exact h.idle c' t hw
  · intro qroc hq hstatus
    obtain rfl : proc = qroc := by simpa [hself] using hq
    exact absurd hproc.1 hstatus

/-- The entry of a session that was held is not in use any more. -/
theorem takeBack (h : b.Consistent) {p : ProcessorId} {s : SessionId} (hs : b.Holds p s)
    (hsessions : b'.manager.sessions = Function.update b.manager.sessions
      (b.manager.objects s).clientId (some ⟨s, false⟩))
    (hobjects : b'.manager.objects = Function.update b.manager.objects s
      ((b.manager.objects s).setSender none))
    (hnext : b'.manager.next = b.manager.next)
    (hself : ∀ proc, b'.processors p = some proc → proc.currentSession = none)
    (hat : OnlyAt p b b') : b'.Consistent := by
  have hheld : b.manager.sessions (b.manager.objects s).clientId = some ⟨s, true⟩ := by
    obtain ⟨proc, hp, hcur⟩ := hs
    exact (h.held p proc s hp hcur).1
  have hclient : ∀ t, (b'.manager.objects t).clientId = (b.manager.objects t).clientId := by
    intro t
    rw [hobjects]
    by_cases hts : t = s
    · subst hts
      simp [Session.setSender]
    · rw [Function.update_of_ne hts]
  have hobject : ∀ t, t ≠ s → b'.manager.objects t = b.manager.objects t := by
    intro t hts
    rw [hobjects, Function.update_of_ne hts]
  have hentry : ∀ c wrapper, c ≠ (b.manager.objects s).clientId →
      b'.manager.sessions c = some wrapper → b.manager.sessions c = some wrapper := by
    intro c wrapper hcc hw
    rwa [hsessions, Function.update_of_ne hcc] at hw
  have hnew : b'.manager.sessions (b.manager.objects s).clientId = some ⟨s, false⟩ := by
    rw [hsessions, Function.update_self]
  refine ⟨h.fresh_onlyAt hat, ?_, ?_, ?_, ?_, ?_,
    h.connected_onlyAt hat fun proc hp _ => hself proc hp⟩
  · intro c wrapper hw
    rw [hclient, hnext]
    by_cases hcc : c = (b.manager.objects s).clientId
    · rw [hcc, hnew] at hw
      obtain rfl : (⟨s, false⟩ : SessionWrapper) = wrapper := by simpa using hw
      exact ⟨(h.stored _ _ hheld).1, hcc.symm⟩
    · exact h.stored c wrapper (hentry c wrapper hcc hw)
  · intro q qroc t hq ht
    obtain ⟨hqp, hq⟩ := holder_onlyAt hat hself hq ht
    obtain ⟨hts, hcc⟩ := h.apart hqp hs ⟨qroc, hq, ht⟩
    rw [hobject t hts, hsessions, Function.update_of_ne hcc]
    exact h.held q qroc t hq ht
  · intro q q' t hholds hholds'
    obtain ⟨qroc, hq, ht⟩ := hholds
    obtain ⟨qroc', hq', ht'⟩ := hholds'
    exact h.unique q q' t ⟨qroc, (holder_onlyAt hat hself hq ht).2, ht⟩
      ⟨qroc', (holder_onlyAt hat hself hq' ht').2, ht'⟩
  · intro c t hw
    have hcc : c ≠ (b.manager.objects s).clientId := by
      intro hcc
      rw [hcc, hnew] at hw
      simp at hw
    have hw := hentry c _ hcc hw
    obtain ⟨q, qroc, hq, ht⟩ := h.lent c t hw
    have hqp : q ≠ p := by
      intro hqp
      subst hqp
      obtain ⟨proc, hp, hcur⟩ := hs
      obtain rfl : proc = qroc := by simpa [hp] using hq
      obtain rfl : s = t := by simpa [hcur] using ht
      exact hcc (h.stored c _ hw).2.symm
    exact ⟨q, qroc, (hat.other q hqp).trans hq, ht⟩
  · intro c t hw
    by_cases hcc : c = (b.manager.objects s).clientId
    · rw [hcc, hnew] at hw
      obtain rfl : s = t := by simpa using hw
      rw [hobjects, Function.update_self]
      rfl
    · have hw := hentry c _ hcc hw
      have hts : t ≠ s := by
        intro hts
        subst hts
        exact hcc (h.stored c _ hw).2.symm
      rw [hobject t hts]
      exact h.idle c t hw

/-- A processor gives its session back, and keeps none. -/
theorem giveBack (h : b.Consistent) {p : ProcessorId} {proc : Processor}
    (hp : b.processors p = some proc)
    (hmanager : b'.manager = (b.manager.returnSession proc.currentSession).2.2)
    (hself : ∀ proc, b'.processors p = some proc → proc.currentSession = none)
    (hat : OnlyAt p b b') : b'.Consistent := by
  cases hcur : proc.currentSession with
  | none =>
    rw [hcur, SessionManager.returnSession_none] at hmanager
    refine h.withoutSession ?_ hmanager hself hat
    intro s ⟨qroc, hq, hs⟩
    obtain rfl : proc = qroc := by simpa [hp] using hq
    simp [hcur] at hs
  | some s =>
    rw [hcur, SessionManager.returnSession_known (h.held p proc s hp hcur).1] at hmanager
    exact h.takeBack ⟨proc, hp, hcur⟩ (by rw [hmanager]) (by rw [hmanager]) (by rw [hmanager])
      hself hat

/-- `removeSession` forgets an entry that is not in use. -/
theorem removeSession (h : b.Consistent) (c : Bytes) (ec : ErrorCode) :
    Consistent { b with manager := (b.manager.removeSession c ec).2.2 } := by
  by_cases hfree : ∃ s, b.manager.sessions c = some ⟨s, false⟩
  · obtain ⟨s, hs⟩ := hfree
    rw [SessionManager.removeSession_free hs]
    have hentry : ∀ c' wrapper, Function.update b.manager.sessions c none c' = some wrapper →
        c' ≠ c ∧ b.manager.sessions c' = some wrapper := by
      intro c' wrapper hw
      by_cases hcc : c' = c
      · subst hcc
        simp at hw
      · exact ⟨hcc, by rwa [Function.update_of_ne hcc] at hw⟩
    refine ⟨h.fresh, ?_, ?_, h.unique, ?_, ?_, h.connected⟩
    · intro c' wrapper hw
      exact h.stored c' wrapper (hentry c' wrapper hw).2
    · intro q qroc t hq ht
      obtain ⟨hheld, hsender⟩ := h.held q qroc t hq ht
      have hcc : (b.manager.objects t).clientId ≠ c := by
        intro hcc
        rw [hcc, hs] at hheld
        simp at hheld
      exact ⟨(Function.update_of_ne hcc _ _).trans hheld, hsender⟩
    · intro c' t hw
      exact h.lent c' t (hentry c' _ hw).2
    · intro c' t hw
      exact h.idle c' t (hentry c' _ hw).2
  · rw [(SessionManager.removeSession_kept (not_exists.mp hfree)).2]
    exact h

/-! ## §3 Every operation keeps it -/

/-- A CONNECT packet. -/
theorem doProcessConnect (h : b.Consistent) {p : ProcessorId} {proc : Processor}
    (hp : b.processors p = some proc) (hstatus : proc.status = .none)
    (connect : ConnectControlPacket) :
    (b.doProcessConnect p { proc with status := .connected } connect).broker.Consistent := by
  have hold : ∀ s, ¬ b.Holds p s := by
    intro s ⟨qroc, hq, hs⟩
    obtain rfl : proc = qroc := by simpa [hp] using hq
    simp [h.connected p proc hp (by simp [hstatus])] at hs
  have hat : ∀ (m : SessionManager) (x : Processor),
      OnlyAt p b (({ b with manager := m } : Broker).setProcessor p x) :=
    fun m x => ⟨fun q hqp => Function.update_of_ne hqp _ _, h.known hp, le_rfl⟩
  have hself : ∀ (m : SessionManager) (x : Processor),
      (({ b with manager := m } : Broker).setProcessor p x).processors p = some x :=
    fun m x => Function.update_self ..
  unfold Broker.doProcessConnect
  cases hw : b.manager.sessions connect.clientId with
  | none =>
    rw [SessionManager.getSession_new hw]
    refine h.lend (s := b.manager.next) hold (by simp [hw]) ?_ rfl ?_ ?_ ?_ (hself _ _) ⟨rfl, rfl⟩
      (hat _ _)
    · intro c' wrapper hw' hnext
      exact absurd hnext (h.stored c' wrapper hw').1.ne
    · simp [setProcessor]
    · intro t ht
      exact Function.update_of_ne ht _ _
    · exact ⟨Nat.lt_succ_self _, Nat.le_succ _⟩
  | some wrapper =>
    obtain ⟨s, inUse⟩ := wrapper
    cases inUse with
    | true =>
      rw [SessionManager.getSession_inUse hw]
      refine h.withoutSession hold rfl ?_ (hat _ _)
      intro qroc hq
      rw [hself] at hq
      obtain rfl := Option.some.inj hq
      rfl
    | false =>
      rw [SessionManager.getSession_known hw]
      refine h.lend (s := s) hold (by simp [hw]) ?_ rfl ?_ ?_ ?_ (hself _ _) ⟨rfl, rfl⟩
        (hat _ _)
      · intro c' wrapper hw' hnext
        subst hnext
        exact (h.stored c' wrapper hw').2.symm.trans (h.stored _ _ hw).2
      · simp [setProcessor, Session.setSender, (h.stored _ _ hw).2]
      · intro t ht
        exact Function.update_of_ne ht _ _
      · exact ⟨(h.stored _ _ hw).1, le_rfl⟩

/-- A SUBSCRIBE packet. -/
theorem doProcessSubscribe (h : b.Consistent) (proc : Processor) (subs : SubscribeControlPacket)
    (ec : ErrorCode) : (b.doProcessSubscribe proc subs ec).broker.Consistent := by
  obtain ⟨objects, trees, hframe, hobjects⟩ := b.doProcessSubscribe_frame proc subs ec
  rw [hframe]
  refine h.frame rfl rfl rfl rfl ?_
  intro t
  obtain ⟨subscriptions, ht⟩ := hobjects t
  show (objects t).clientId = _ ∧ (objects t).sender = _
  rw [ht]
  exact ⟨rfl, rfl⟩

/-- **Every operation keeps the invariant.** -/
theorem step (h : b.Consistent) (op : BrokerOp) : (machine b op).2.Consistent := by
  have hstep := stepped b op
  generalize (machine b op).1 = answer at hstep
  generalize (machine b op).2 = b' at hstep ⊢
  cases hstep with
  | accepted =>
    refine h.withoutSession (p := b.nextProcessor) ?_ rfl ?_
      ⟨?_, Nat.lt_succ_self _, Nat.le_succ _⟩
    · intro s ⟨proc, hp, _⟩
      simp [h.fresh _ le_rfl] at hp
    · intro proc hp
      change Function.update _ _ _ _ = _ at hp
      rw [Function.update_self] at hp
      obtain rfl := Option.some.inj hp
      rfl
    · intro q hq
      exact Function.update_of_ne hq _ _
  | processed hp heffect =>
    cases heffect with
    | unchanged => exact h
    | published => exact h.frame rfl rfl rfl rfl fun _ => ⟨rfl, rfl⟩
    | connected _ _ hstatus => exact h.doProcessConnect hp hstatus _
    | subscribed => exact h.doProcessSubscribe _ _ _
    | disconnected =>
      refine h.giveBack hp rfl ?_ ⟨?_, h.known hp, le_rfl⟩
      · intro proc' hp'
        change Function.update _ _ _ _ = _ at hp'
        rw [Function.update_self] at hp'
        obtain rfl := Option.some.inj hp'
        rfl
      · intro q hq
        exact Function.update_of_ne hq _ _
  | destroyed hp =>
    refine h.giveBack hp rfl ?_ ⟨?_, h.known hp, le_rfl⟩
    · intro proc' hp'
      change Function.update _ _ _ _ = _ at hp'
      rw [Function.update_self] at hp'
      cases hp'
    · intro q hq
      exact Function.update_of_ne hq _ _
  | idle => exact h
  | expired => exact h.frame rfl rfl rfl rfl fun _ => ⟨rfl, rfl⟩
  | removed => exact h.removeSession _ none

end Consistent

/-- **Every state that a broker can reach is consistent.** -/
theorem consistent_after (ops : List BrokerOp) : (machine.after new ops).Consistent :=
  Machine.inv_after Consistent (fun _ op h => h.step op) consistent_new ops

end Broker

/-! ## §4 Exclusivity -/

open Broker in
/-- **Session exclusivity.** In every reachable state: the sessions of one
client identifier have one holder at most; an entry is in use exactly when a
processor holds its session; the sender of a session in use is that of its
holder, and the sender of one that is not in use is empty; and `removeSession`
takes no session that a processor holds. -/
theorem sessions_exclusive (ops : List BrokerOp) :
    let b := machine.after new ops
    (∀ p q s t, b.Holds p s → b.Holds q t →
      (b.manager.objects s).clientId = (b.manager.objects t).clientId → p = q) ∧
    (∀ c wrapper, b.manager.sessions c = some wrapper →
      (wrapper.inUse = true ↔ ∃ p, b.Holds p wrapper.session)) ∧
    (∀ p proc s, b.processors p = some proc → proc.currentSession = some s →
      b.manager.sessions (b.manager.objects s).clientId = some ⟨s, true⟩ ∧
        (b.manager.objects s).sender = proc.packetSender) ∧
    (∀ c s, b.manager.sessions c = some ⟨s, false⟩ → (b.manager.objects s).sender = none) ∧
    (∀ c ec p s, b.Holds p s → (b.manager.removeSession c ec).2.2.sessions
      (b.manager.objects s).clientId = some ⟨s, true⟩) := by
  intro b
  have h : b.Consistent := consistent_after ops
  refine ⟨?_, ?_, h.held, h.idle, ?_⟩
  · intro p q s t hp hq hc
    by_contra hpq
    exact (h.apart hpq hq hp).2 hc
  · intro c wrapper hw
    obtain ⟨s, inUse⟩ := wrapper
    constructor
    · intro huse
      obtain rfl : inUse = true := huse
      exact h.lent c s hw
    · intro ⟨p, proc, hp, hs⟩
      have hheld := (h.held p proc s hp hs).1
      rw [(h.stored c _ hw).2, hw] at hheld
      simpa using hheld
  · intro c ec p s ⟨proc, hp, hs⟩
    simpa using ((h.removeSession c ec).held p proc s hp hs).1

end Acatl.Mqtt

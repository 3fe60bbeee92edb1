/-
Acatl.Mqtt.SendQueue — `examples/mqtt_broker/connection.h`, the sending side:
threads call `addSendPacket`, and one packet after the other is serialized into
`_writeBuf` and written to the socket.

What touches `_isSending` and `_sendPackets` is inside a block that has
`_sendMutex` locked, and there are three of them: the one in `addSendPacket`, the
one in `sendPackages` and `doSendPackages`, each a step here. The third one also
fills `_writeBuf` and starts the write. The write itself is outside of all
blocks: it reads `_writeBuf` piece by piece, and only its handler calls
`doSendPackages` again. Nothing in the model keeps a second write from being
started while there is one.

Calls of `addSendPacket` are numbered. When the serializer dereferences a null
pointer or stores outside of `_writeBuf` there is nothing to say about what comes
afterwards (`undefined`).

  §1  the steps;
  §2  `stepped`: what a step finds and what it does;
  §3  `Exclusive`: one call or one write has the right to send;
  §4  `sent_in_order`: the packets go out in the order in which they came;
  §5  `nothing_left`: when everybody is done nothing is left in the queue.
-/
import Acatl.Lib.WorkQueue
import Acatl.Mqtt.FrameRoundTrips

namespace Acatl.Mqtt

open Acatl.Lib

/-! ## §1 Steps -/

/-- The number of a call of `addSendPacket`. -/
abbrev SendCallId := Nat

/-- `serialize` is written out for the packet. -/
def ControlPacket.Written (packet : ControlPacket) : Prop :=
  match packet.header.controlPacketType with
  | .connect | .connack | .subscribe | .suback | .pingresp | .disconnect | .publish => True
  | .unsubscribe | .unsuback | .pingreq | .puback | .pubrec | .pubcomp | .pubrel | .none
  | .reserved => False

instance : DecidablePred ControlPacket.Written := fun packet => by
  unfold ControlPacket.Written
  split <;> infer_instance

/-- A packet of the class its header says, whose frame does not need more room
than `serialize` gives it in a buffer of this size. -/
structure ControlPacket.HasRoom (packet : ControlPacket) (size : Nat) : Prop where
  serializable : Serializer.Serializable packet
  room : packet.body.frame.length ≤ size ∨
    ¬ packet.body.IsSubAck ∧ packet.body.bytes.length ≤ 127

theorem ControlPacket.written_of_serializable {packet : ControlPacket}
    (h : Serializer.Serializable packet) : packet.Written := by
  unfold ControlPacket.Written
  rw [← h.typed]
  cases hbody : packet.body with
  | pingReq => exact absurd hbody h.written
  | connect | connAck | publish | subscribe | subAck | pingResp | disconnect => trivial

/-- What the socket is given for some packets. -/
def frames (packets : List ControlPacket) : Bytes :=
  packets.flatMap fun packet => if packet.Written then packet.body.frame else []

/-- How far a call of `addSendPacket` is. -/
inductive SendCallStatus where
  | start
  | pushed
  -- it has set `_isSending`, and `doSendPackages` comes next
  | claimed
  | done
  deriving DecidableEq

/-- How far an `async_write` is. -/
inductive WriteStatus where
  | inFlight (sent : Nat)
  -- the handler was called, and `doSendPackages` comes next
  | completed
  -- the handler was called with an error
  | failed (sent : Nat)
  deriving DecidableEq

/-- An `async_write` of the first `length` bytes of `_writeBuf`, in which the
packet was when it was started. -/
structure Write where
  packet : ControlPacket
  length : Nat
  status : WriteStatus
  deriving DecidableEq

/-- How many bytes were written. -/
def Write.sent (w : Write) : Nat :=
  match w.status with
  | .inFlight sent | .failed sent => sent
  | .completed => w.length

/-- The sending side of `Connection`. `wire` is what the socket was given. -/
structure SendQueue where
  sendPackets : List ControlPacket := []
  isSending : Bool := false
  writeBuf : Bytes := List.replicate 64 0
  calls : SendCallId → SendCallStatus := fun _ => .start
  writes : List Write := []
  wire : Bytes := []
  undefined : Bool := false

/-- What happens next. -/
inductive SendOp where
  -- `addSendPacket`
  | push (c : SendCallId) (packet : ControlPacket)
  -- `sendPackages`
  | check (c : SendCallId)
  | send (c : SendCallId)
  -- the write with the number `i`
  | transmit (i n : Nat)
  | complete (i : Nat)
  | fail (i : Nat)
  | sendNext (i : Nat)
  deriving DecidableEq

/-- What a step does to the queue of packets. -/
abbrev SendAnswer := List (WorkQueue.Op Unit ControlPacket)

namespace SendQueue

def new : SendQueue := {}

def setCall (s : SendQueue) (c : SendCallId) (status : SendCallStatus) : SendQueue :=
  { s with calls := Function.update s.calls c status }

/-- `doSendPackages`, with `do_write`. -/
def doSendPackages (s : SendQueue) : SendAnswer × SendQueue :=
  match s.sendPackets with
  | [] => ([], { s with isSending := false })
  | nextPacket :: rest =>
    let s := { s with sendPackets := rest }
    match Serializer.serialize nextPacket s.writeBuf 0 none with
    | none => ([.take (), .finish ()], { s with undefined := true })
    | some r =>
      let s := { s with writeBuf := r.out.buffer }
      if ¬ r.out.InBounds then
        ([.take (), .finish ()], { s with undefined := true })
      else if ¬ r.ret then
        ([.take (), .finish ()], { s with isSending := false })
      else if r.out.position > 0 then
        ([.take ()], { s with
          writes := s.writes ++ [⟨nextPacket, r.out.position, .inFlight 0⟩] })
      else
        ([.take (), .finish ()], s)

/-- The write `i` goes on. -/
def setWrite (s : SendQueue) (i : Nat) (write : Write) : SendQueue :=
  { s with writes := s.writes.set i write }

/-- A step, unless the thread is elsewhere. -/
def step (s : SendQueue) : SendOp → Option (SendAnswer × SendQueue)
  | .push c packet =>
    match s.calls c with
    | .start =>
      some ([.put packet], { s with sendPackets := s.sendPackets ++ [packet] }.setCall c .pushed)
    | _ => none
  | .check c =>
    match s.calls c with
    | .pushed =>
      if s.isSending then some ([], s.setCall c .done)
      else some ([], { s with isSending := true }.setCall c .claimed)
    | _ => none
  | .send c =>
    match s.calls c with
    | .claimed => some (s.setCall c .done).doSendPackages
    | _ => none
  | .transmit i n =>
    match s.writes[i]? with
    | some ⟨packet, length, .inFlight sent⟩ =>
      if 0 < n ∧ sent + n ≤ length then
        some ([], { s with wire := s.wire ++ (s.writeBuf.drop sent).take n }.setWrite i
          ⟨packet, length, .inFlight (sent + n)⟩)
      else none
    | _ => none
  | .complete i =>
    match s.writes[i]? with
    | some ⟨packet, length, .inFlight sent⟩ =>
      if sent = length then some ([], s.setWrite i ⟨packet, length, .completed⟩) else none
    | _ => none
  | .fail i =>
    match s.writes[i]? with
    | some ⟨packet, length, .inFlight sent⟩ =>
      some ([], s.setWrite i ⟨packet, length, .failed sent⟩)
    | _ => none
  | .sendNext i =>
    match s.writes[i]? with
    | some ⟨_, _, .completed⟩ =>
      let r := { s with writes := s.writes.eraseIdx i }.doSendPackages
      some (.finish () :: r.1, r.2)
    | _ => none

/-- The threads, step by step, up to undefined behaviour. -/
def machine : Machine SendQueue SendOp SendAnswer := fun s op =>
  if s.undefined then ([], s) else (s.step op).getD ([], s)

/-- The step can be made. -/
def Enabled (s : SendQueue) (op : SendOp) : Prop :=
  s.undefined = false ∧ (s.step op).isSome = true

instance (s : SendQueue) (op : SendOp) : Decidable (s.Enabled op) :=
  inferInstanceAs (Decidable (_ ∧ _))

/-! ## §2 What a step does -/

/-- What `doSendPackages` does. -/
inductive Sent (s : SendQueue) : SendAnswer → SendQueue → Prop
  | nothing (hempty : s.sendPackets = []) : Sent s [] { s with isSending := false }
  | undefined {packet : ControlPacket} {rest : List ControlPacket} {buffer : Bytes}
      (hqueue : s.sendPackets = packet :: rest) (hroom : ¬ packet.HasRoom s.writeBuf.length) :
      Sent s [.take (), .finish ()]
        { s with sendPackets := rest, writeBuf := buffer, undefined := true }
  | refused {packet : ControlPacket} {rest : List ControlPacket}
      (hqueue : s.sendPackets = packet :: rest) (hpacket : ¬ packet.Written) :
      Sent s [.take (), .finish ()] { s with sendPackets := rest, isSending := false }
  | started {packet : ControlPacket} {rest : List ControlPacket} {buffer : Bytes}
      (hqueue : s.sendPackets = packet :: rest) (hpacket : packet.Written)
      (hbuffer : buffer.take packet.body.frame.length = packet.body.frame)
      (hsize : s.writeBuf.length ≤ buffer.length) :
      Sent s [.take ()] { s with
        sendPackets := rest
        writeBuf := buffer
        writes := s.writes ++ [⟨packet, packet.body.frame.length, .inFlight 0⟩] }

/-- A packet that `serialize` refuses leaves the buffer as it is. -/
theorem serialize_refused {packet : ControlPacket} (h : ¬ packet.Written) (buffer : Bytes)
    (length : Nat) (ec : ErrorCode) : ∃ e,
    Serializer.serialize packet buffer length ec = some ⟨false, some e, ⟨buffer, length, []⟩⟩ := by
  unfold ControlPacket.Written at h
  unfold Serializer.serialize
  cases htype : packet.header.controlPacketType <;> simp only [htype, not_true_eq_false] at h <;>
    exact ⟨_, rfl⟩

theorem serialize_ret {packet : ControlPacket} (h : packet.Written) {buffer : Bytes} {length : Nat}
    {ec : ErrorCode} {r : Serialized}
    (hr : Serializer.serialize packet buffer length ec = some r) : r.ret = true := by
  unfold ControlPacket.Written at h
  unfold Serializer.serialize at hr
  cases htype : packet.header.controlPacketType <;> simp only [htype] at h hr <;>
    split at hr <;> simp only [Option.some.injEq, reduceCtorEq] at hr <;> rw [← hr]

theorem doSendPackages_sent (s : SendQueue) : Sent s s.doSendPackages.1 s.doSendPackages.2 := by
  unfold doSendPackages
  split
  · rename_i hempty
    exact .nothing hempty
  · rename_i packet rest hqueue
    by_cases hpacket : packet.Written
    · cases hr : Serializer.serialize packet s.writeBuf 0 none with
      | none =>
        have hroom : ¬ packet.HasRoom s.writeBuf.length := by
          intro h
          obtain ⟨r, hsome, -⟩ := h.serializable.serialize s.writeBuf 0 none
          simp [hr] at hsome
        simpa [hr] using Sent.undefined hqueue hroom
      | some r =>
        have hret := serialize_ret hpacket hr
        obtain ⟨f, hf, hout⟩ := Serializer.serialize_emits hr hret
        have hposition : r.out.position = packet.body.frame.length := by
          rw [hout, Serializer.start, hf.position, Nat.zero_add]
        have hpos : r.out.position > 0 := by
          rw [hposition, PacketBody.frame, List.length_cons]
          omega
        have hsize : r.out.buffer.length = max s.writeBuf.length packet.body.bufferSize := by
          rw [hout, Serializer.start, hf.size, Serializer.length_grow]
        by_cases hbounds : r.out.InBounds
        · simp only [hr, hbounds, hret, hpos, not_true_eq_false, if_false, if_true]
          rw [hposition]
          refine .started hqueue hpacket ?_ (by omega)
          rw [← hposition]
          rw [hout, Serializer.start] at hbounds ⊢
          exact hf.taken hbounds
        · simp only [hr, hbounds, not_false_eq_true, if_true]
          refine .undefined hqueue fun h => hbounds ?_
          rw [hout, Serializer.start, hf.inBounds_iff, Serializer.length_grow]
          exact (PacketBody.fits_iff _ _).mpr h.room
    · obtain ⟨e, hr⟩ := serialize_refused hpacket s.writeBuf 0 none
      have hbounds : (⟨s.writeBuf, 0, []⟩ : Writer UInt8).InBounds := by simp [Writer.InBounds]
      simp only [hr, hbounds, not_true_eq_false, if_false, Bool.false_eq_true, not_false_eq_true,
        if_true]
      exact .refused hqueue hpacket

/-- What a step finds and what it does. -/
inductive Stepped (s : SendQueue) : SendOp → SendAnswer → SendQueue → Prop
  | pushed {c : SendCallId} {packet : ControlPacket} (hc : s.calls c = .start) :
      Stepped s (.push c packet) [.put packet]
        ({ s with sendPackets := s.sendPackets ++ [packet] }.setCall c .pushed)
  | left {c : SendCallId} (hc : s.calls c = .pushed) (hsending : s.isSending = true) :
      Stepped s (.check c) [] (s.setCall c .done)
  | claimed {c : SendCallId} (hc : s.calls c = .pushed) (hsending : s.isSending = false) :
      Stepped s (.check c) [] ({ s with isSending := true }.setCall c .claimed)
  | sent {c : SendCallId} {answer : SendAnswer} {s' : SendQueue} (hc : s.calls c = .claimed)
      (hsent : Sent (s.setCall c .done) answer s') : Stepped s (.send c) answer s'
  | transmitted {i n sent length : Nat} {packet : ControlPacket}
      (hi : s.writes[i]? = some ⟨packet, length, .inFlight sent⟩) (hn : sent + n ≤ length) :
      Stepped s (.transmit i n) []
        ({ s with wire := s.wire ++ (s.writeBuf.drop sent).take n }.setWrite i
          ⟨packet, length, .inFlight (sent + n)⟩)
  | completed {i length : Nat} {packet : ControlPacket}
      (hi : s.writes[i]? = some ⟨packet, length, .inFlight length⟩) :
      Stepped s (.complete i) [] (s.setWrite i ⟨packet, length, .completed⟩)
  | failed {i length sent : Nat} {packet : ControlPacket}
      (hi : s.writes[i]? = some ⟨packet, length, .inFlight sent⟩) :
      Stepped s (.fail i) [] (s.setWrite i ⟨packet, length, .failed sent⟩)
  | sentNext {i length : Nat} {packet : ControlPacket} {answer : SendAnswer} {s' : SendQueue}
      (hi : s.writes[i]? = some ⟨packet, length, .completed⟩)
      (hsent : Sent { s with writes := s.writes.eraseIdx i } answer s') :
      Stepped s (.sendNext i) (.finish () :: answer) s'

/-- **What a step finds and what it does.** -/
theorem stepped {s : SendQueue} {op : SendOp} (h : s.Enabled op) :
    Stepped s op (machine s op).1 (machine s op).2 := by
  obtain ⟨hdefined, h⟩ := h
  obtain ⟨r, hr⟩ := Option.isSome_iff_exists.mp h
  have hmachine : machine s op = r := by simp [machine, hdefined, hr]
  rw [hmachine]
  unfold step at hr
  cases op with
  | push c packet =>
    dsimp only at hr
    split at hr
    · rw [← Option.some.inj hr]
      exact .pushed ‹_›
    · cases hr
  | check c =>
    dsimp only at hr
    split at hr
    · split at hr
      · rw [← Option.some.inj hr]
        exact .left ‹_› ‹_›
      · rename_i hsending
        rw [← Option.some.inj hr]
        exact .claimed ‹_› (by simpa using hsending)
    · cases hr
  | send c =>
    dsimp only at hr
    split at hr
    · rw [← Option.some.inj hr]
      exact .sent ‹_› (doSendPackages_sent _)
    · cases hr
  | transmit i n =>
    dsimp only at hr
    split at hr
    · split at hr
      · rename_i hn
        rw [← Option.some.inj hr]
        exact .transmitted ‹_› hn.2
      · cases hr
    · cases hr
  | complete i =>
    dsimp only at hr
    split at hr
    · split at hr
      · rename_i hi hsent
        rw [← Option.some.inj hr]
        exact .completed (hsent ▸ hi)
      · cases hr
    · cases hr
  | fail i =>
    dsimp only at hr
    split at hr
    · rw [← Option.some.inj hr]
      exact .failed ‹_›
    · cases hr
  | sendNext i =>
    dsimp only at hr
    split at hr
    · rw [← Option.some.inj hr]
      exact .sentNext ‹_› (doSendPackages_sent _)
    · cases hr

/-! ## §3 The right to send -/

/-- Who has set `_isSending`. -/
inductive Holder where
  | nobody
  | call (c : SendCallId)
  | write (w : Write)

/-- The writes of the holder. -/
def Holder.writes : Holder → List Write
  | .write w => [w]
  | .nobody | .call _ => []

/-- The flag, the calls and the writes tell the same holder. -/
structure HeldBy (s : SendQueue) (holder : Holder) : Prop where
  sending : s.isSending = false ↔ holder = .nobody
  claims : ∀ c, s.calls c = .claimed ↔ holder = .call c
  writes : s.writes = holder.writes

/-- Up to undefined behaviour there is one holder at most. -/
def Exclusive (s : SendQueue) : Prop := s.undefined = false → ∃ holder, s.HeldBy holder

theorem exclusive_new : new.Exclusive :=
  fun _ => ⟨.nobody, by simp [new], by simp [new], rfl⟩

section

variable {s s' : SendQueue} {holder : Holder}

theorem calls_setCall (c d : SendCallId) (status : SendCallStatus) :
    (s.setCall c status).calls d = if d = c then status else s.calls d :=
  Function.update_apply ..

/-- A call that does not hold the right goes on without it. -/
theorem HeldBy.setCall (h : s.HeldBy holder) {c : SendCallId} {status : SendCallStatus}
    (hc : holder ≠ .call c) (hstatus : status ≠ .claimed) : (s.setCall c status).HeldBy holder where
  sending := h.sending
  claims d := by
    rw [calls_setCall]
    split
    · rename_i hdc
      subst hdc
      exact iff_of_false hstatus hc
    · exact h.claims d
  writes := h.writes

/-- A call takes the right that nobody has. -/
theorem HeldBy.claim (h : s.HeldBy .nobody) {c : SendCallId} :
    ({ s with isSending := true }.setCall c .claimed).HeldBy (.call c) where
  sending := by simp [SendQueue.setCall]
  claims d := by
    rw [calls_setCall]
    split
    · rename_i hdc
      simp [hdc]
    · rename_i hdc
      rw [h.claims d]
      simp [Ne.symm hdc]
  writes := h.writes

/-- The only write. -/
theorem HeldBy.write (h : s.HeldBy holder) {i : Nat} {w : Write} (hi : s.writes[i]? = some w) :
    i = 0 ∧ holder = .write w := by
  rw [h.writes] at hi
  cases holder with
  | nobody | call => simp [Holder.writes] at hi
  | write w' =>
    cases i with
    | zero =>
      simp only [Holder.writes, List.getElem?_cons_zero, Option.some.injEq] at hi
      exact ⟨rfl, congrArg Holder.write hi⟩
    | succ i => simp [Holder.writes] at hi

/-- The write goes on. -/
theorem HeldBy.setWrite {w w' : Write} (h : s.HeldBy (.write w)) :
    (s.setWrite 0 w').HeldBy (.write w') where
  sending := h.sending.trans (by simp)
  claims c := (h.claims c).trans (by simp)
  writes := by
    show s.writes.set 0 w' = _
    rw [h.writes]
    rfl

/-- `doSendPackages`, called by the one who holds the right. -/
theorem Sent.exclusive {answer : SendAnswer} (h : Sent s answer s') (hsending : s.isSending = true)
    (hclaims : ∀ c, s.calls c ≠ .claimed) (hwrites : s.writes = []) : s'.Exclusive := by
  cases h with
  | nothing => exact fun _ => ⟨.nobody, by simp, by simpa using hclaims, hwrites⟩
  | undefined => exact fun h => by cases h
  | refused => exact fun _ => ⟨.nobody, by simp, by simpa using hclaims, hwrites⟩
  | started =>
    exact fun _ => ⟨.write _, by simp [hsending], by simpa using hclaims, by rw [hwrites]; rfl⟩

/-- What the holder leaves when it calls `doSendPackages`. -/
theorem HeldBy.call {c : SendCallId} (h : s.HeldBy (.call c)) :
    (s.setCall c .done).isSending = true ∧ (∀ d, (s.setCall c .done).calls d ≠ .claimed) ∧
      (s.setCall c .done).writes = [] := by
  refine ⟨?_, ?_, h.writes⟩
  · have hsending : s.isSending = false ↔ _ := h.sending
    show s.isSending = true
    simpa using hsending
  · intro d
    rw [calls_setCall]
    split
    · simp
    · rename_i hdc
      rw [Ne, h.claims d, Holder.call.injEq]
      exact Ne.symm hdc

theorem HeldBy.handler {w : Write} (h : s.HeldBy (.write w)) :
    s.isSending = true ∧ (∀ d, s.calls d ≠ .claimed) ∧ s.writes.eraseIdx 0 = [] := by
  refine ⟨?_, ?_, ?_⟩
  · have hsending := h.sending
    simpa using hsending
  · intro d
    rw [Ne, h.claims d]
    simp
  · rw [h.writes]
    rfl

/-- **Every step keeps it.** -/
theorem Exclusive.step (h : s.Exclusive) {op : SendOp} (hop : s.Enabled op) :
    (machine s op).2.Exclusive := by
  obtain ⟨holder, hheld⟩ := h hop.1
  have hstep := stepped hop
  generalize (machine s op).1 = answer at hstep
  generalize (machine s op).2 = s' at hstep ⊢
  -- a call that is not behind its claim does not hold the right
  have hother : ∀ {c}, s.calls c ≠ .claimed → holder ≠ .call c := by
    intro c hc heq
    exact hc ((hheld.claims c).mpr heq)
  cases hstep with
  | @pushed c packet hc =>
    have hqueue : ({ s with sendPackets := s.sendPackets ++ [packet] } : SendQueue).HeldBy holder :=
      ⟨hheld.sending, hheld.claims, hheld.writes⟩
    exact fun _ => ⟨holder, hqueue.setCall (hother (by simp [hc])) (by simp)⟩
  | @left c hc => exact fun _ => ⟨holder, hheld.setCall (hother (by simp [hc])) (by simp)⟩
  | @claimed c hc hsending =>
    obtain rfl := hheld.sending.mp hsending
    exact fun _ => ⟨.call c, hheld.claim⟩
  | @sent c _ _ hc hsent =>
    obtain rfl := (hheld.claims c).mp hc
    obtain ⟨hsending, hclaims, hwrites⟩ := hheld.call
    exact hsent.exclusive hsending hclaims hwrites
  | @transmitted i n sent length packet hi =>
    obtain ⟨rfl, rfl⟩ := hheld.write hi
    have hwire : ({ s with wire := s.wire ++ (s.writeBuf.drop sent).take n } : SendQueue).HeldBy
        (.write ⟨packet, length, .inFlight sent⟩) := ⟨hheld.sending, hheld.claims, hheld.writes⟩
    exact fun _ => ⟨_, hwire.setWrite⟩
  | completed hi =>
    obtain ⟨rfl, rfl⟩ := hheld.write hi
    exact fun _ => ⟨_, hheld.setWrite⟩
  | failed hi =>
    obtain ⟨rfl, rfl⟩ := hheld.write hi
    exact fun _ => ⟨_, hheld.setWrite⟩
  | sentNext hi hsent =>
    obtain ⟨rfl, rfl⟩ := hheld.write hi
    obtain ⟨hsending, hclaims, hwrites⟩ := hheld.handler
    exact hsent.exclusive hsending hclaims hwrites

theorem exclusive_after {ops : List SendOp} (hops : machine.Along Enabled new ops) :
    (machine.after new ops).Exclusive :=
  Machine.inv_along Exclusive (fun _ _ h hop => h.step hop) exclusive_new hops

end

/-! ## §4 The order -/

/-- The packets that wait, and the one that is being written. -/
def queue (s : SendQueue) : WorkQueue.Queue Unit ControlPacket :=
  ⟨s.sendPackets, fun _ => s.writes.head?.map Write.packet⟩

/-- What a run does to the queue of packets. -/
def queueOps (ops : List SendOp) : List (WorkQueue.Op Unit ControlPacket) :=
  (machine.outputs new ops).flatMap id

/-- The packets that `addSendPacket` was called with. -/
def pushes (ops : List SendOp) : List ControlPacket :=
  ops.filterMap fun
    | .push _ packet => some packet
    | _ => none

/-- The packets that were taken from the queue. -/
def taken (ops : List SendOp) : List ControlPacket :=
  WorkQueue.takes (WorkQueue.events (queueOps ops))

/-- What the socket was given, when the packets `taken` were taken from the
queue: all of them, or all but the end of the last one. -/
inductive OnWire (taken : List ControlPacket) (s : SendQueue) : Prop
  | undefined (hundefined : s.undefined = true)
  | resting (hwrites : s.writes = []) (hwire : s.wire = frames taken)
  | writing {w : Write} {before : List ControlPacket} (hwrites : s.writes = [w])
      (htaken : taken = before ++ [w.packet]) (hwritten : w.packet.Written)
      (hlength : w.length = w.packet.body.frame.length)
      (hbuffer : s.writeBuf.take w.length = w.packet.body.frame) (hsent : w.sent ≤ w.length)
      (hwire : s.wire = frames before ++ w.packet.body.frame.take w.sent)

section

variable {s s' : SendQueue} {answer : SendAnswer}

theorem frames_append (before behind : List ControlPacket) :
    frames (before ++ behind) = frames before ++ frames behind :=
  List.flatMap_append

theorem frames_written {packet : ControlPacket} (h : packet.Written) :
    frames [packet] = packet.body.frame := by
  simp [frames, h]

theorem frames_refused {packet : ControlPacket} (h : ¬ packet.Written) : frames [packet] = [] := by
  simp [frames, h]

/-- What `doSendPackages` does to the queue, when nothing is being written. -/
theorem Sent.queue (h : Sent s answer s') (hwrites : s.writes = []) :
    WorkQueue.machine.Along WorkQueue.Enabled s.queue answer ∧
      WorkQueue.machine.after s.queue answer = s'.queue := by
  cases h with
  | nothing => exact ⟨trivial, rfl⟩
  | undefined hqueue =>
    simp [SendQueue.queue, hwrites, hqueue, Machine.Along, WorkQueue.Enabled, WorkQueue.machine,
      WorkQueue.step]
  | refused hqueue =>
    simp [SendQueue.queue, hwrites, hqueue, Machine.Along, WorkQueue.Enabled, WorkQueue.machine,
      WorkQueue.step]
  | started hqueue =>
    simp [SendQueue.queue, hwrites, hqueue, Machine.Along, WorkQueue.Enabled, WorkQueue.machine,
      WorkQueue.step, funext_iff]

/-- The end of a write. -/
theorem queue_finish {w : Write} (hwrites : s.writes = [w]) :
    WorkQueue.Enabled s.queue (.finish ()) ∧
      (WorkQueue.machine s.queue (.finish ())).2 =
        ({ s with writes := s.writes.eraseIdx 0 } : SendQueue).queue := by
  simp [queue, hwrites, WorkQueue.Enabled, WorkQueue.machine, WorkQueue.step, funext_iff]

/-- A step does to the queue what its answer says. -/
theorem queue_step (h : s.Exclusive) {op : SendOp} (hop : s.Enabled op) :
    WorkQueue.machine.Along WorkQueue.Enabled s.queue (machine s op).1 ∧
      WorkQueue.machine.after s.queue (machine s op).1 = (machine s op).2.queue := by
  obtain ⟨holder, hheld⟩ := h hop.1
  have hstep := stepped hop
  generalize (machine s op).1 = answer at hstep ⊢
  generalize (machine s op).2 = s' at hstep ⊢
  cases hstep with
  | pushed => exact ⟨⟨trivial, trivial⟩, rfl⟩
  | left => exact ⟨trivial, rfl⟩
  | claimed => exact ⟨trivial, rfl⟩
  | @sent c _ _ hc hsent =>
    obtain rfl := (hheld.claims c).mp hc
    exact hsent.queue hheld.call.2.2
  | transmitted hi | completed hi | failed hi =>
    obtain ⟨rfl, rfl⟩ := hheld.write hi
    refine ⟨trivial, ?_⟩
    simp [SendQueue.queue, setWrite, hheld.writes, Holder.writes]
  | @sentNext i length packet answer' _ hi hsent =>
    obtain ⟨rfl, rfl⟩ := hheld.write hi
    obtain ⟨hfinish, hnext⟩ := queue_finish (w := ⟨packet, length, .completed⟩) hheld.writes
    obtain ⟨halong, hafter⟩ := hsent.queue hheld.handler.2.2
    rw [Machine.after_cons, Machine.Along, hnext]
    exact ⟨⟨hfinish, halong⟩, hafter⟩

/-- The run of the queue. -/
theorem queue_after {ops : List SendOp} (hops : machine.Along Enabled new ops) :
    WorkQueue.machine.Along WorkQueue.Enabled WorkQueue.empty (queueOps ops) ∧
      WorkQueue.machine.after WorkQueue.empty (queueOps ops) = (machine.after new ops).queue :=
  Machine.drives_along queue id Exclusive (fun _ _ h hop => h.step hop)
    (fun _ _ h hop => queue_step h hop) exclusive_new hops

/-- One more step. -/
theorem events_concat {ops : List SendOp} (hops : machine.Along Enabled new ops) (op : SendOp) :
    WorkQueue.events (queueOps (ops ++ [op])) = WorkQueue.events (queueOps ops) ++
      (WorkQueue.machine.outputs (machine.after new ops).queue
        (machine (machine.after new ops) op).1).filterMap id := by
  have hqueueOps : queueOps (ops ++ [op]) =
      queueOps ops ++ (machine (machine.after new ops) op).1 := by
    simp [queueOps, Machine.outputs_append]
  rw [hqueueOps, WorkQueue.events_append, (queue_after hops).2]

/-- What an answer takes from the queue. -/
def takenBy (s : SendQueue) (answer : SendAnswer) : List ControlPacket :=
  WorkQueue.takes ((WorkQueue.machine.outputs s.queue answer).filterMap id)

theorem taken_concat {ops : List SendOp} (hops : machine.Along Enabled new ops) (op : SendOp) :
    taken (ops ++ [op]) = taken ops ++ takenBy (machine.after new ops)
      (machine (machine.after new ops) op).1 := by
  rw [taken, events_concat hops, WorkQueue.takes_append]
  rfl

@[simp] theorem takenBy_nil : s.takenBy [] = [] := rfl
@[simp] theorem takenBy_put (packet : ControlPacket) : s.takenBy [.put packet] = [] := rfl

theorem takenBy_take {packet : ControlPacket} {rest : List ControlPacket}
    (hqueue : s.sendPackets = packet :: rest) : s.takenBy [.take ()] = [packet] := by
  simp [takenBy, queue, hqueue, WorkQueue.machine, WorkQueue.step, WorkQueue.takes]

theorem takenBy_refused {packet : ControlPacket} {rest : List ControlPacket}
    (hqueue : s.sendPackets = packet :: rest) : s.takenBy [.take (), .finish ()] = [packet] := by
  simp [takenBy, queue, hqueue, WorkQueue.machine, WorkQueue.step, WorkQueue.takes]

theorem takenBy_finish {w : Write} (hwrites : s.writes = [w]) (answer : SendAnswer) :
    s.takenBy (.finish () :: answer) =
      ({ s with writes := s.writes.eraseIdx 0 } : SendQueue).takenBy answer := by
  unfold takenBy
  rw [Machine.outputs_cons, (queue_finish hwrites).2]
  simp [queue, hwrites, WorkQueue.machine, WorkQueue.step, WorkQueue.takes]

/-- `doSendPackages`, when everything was written. -/
theorem Sent.onWire {before : List ControlPacket} (h : Sent s answer s') (hwrites : s.writes = [])
    (hwire : s.wire = frames before) : OnWire (before ++ s.takenBy answer) s' := by
  cases h with
  | nothing =>
    rw [takenBy_nil, List.append_nil]
    exact .resting hwrites hwire
  | undefined => exact .undefined rfl
  | refused hqueue hpacket =>
    rw [takenBy_refused hqueue]
    refine .resting hwrites ?_
    rw [frames_append, frames_refused hpacket, List.append_nil]
    exact hwire
  | @started packet rest buffer hqueue hpacket hbuffer =>
    rw [takenBy_take hqueue]
    refine .writing (by rw [hwrites]; rfl) rfl hpacket rfl hbuffer (Nat.zero_le _) ?_
    show s.wire = frames before ++ packet.body.frame.take 0
    rw [List.take_zero, List.append_nil]
    exact hwire

/-- A step that neither takes nor writes. -/
theorem OnWire.frame {packets : List ControlPacket} (h : OnWire packets s)
    (hundefined : s'.undefined = s.undefined) (hwrites : s'.writes = s.writes)
    (hbuffer : s'.writeBuf = s.writeBuf) (hwire : s'.wire = s.wire) : OnWire packets s' := by
  cases h with
  | undefined hu => exact .undefined (hundefined.trans hu)
  | resting hnone hall => exact .resting (hwrites.trans hnone) (hwire.trans hall)
  | writing hone htaken hwritten hlength hbuf hsent hall =>
    exact .writing (hwrites.trans hone) htaken hwritten hlength (hbuffer ▸ hbuf) hsent
      (hwire.trans hall)

/-- **Every step keeps it.** -/
theorem OnWire.step {packets : List ControlPacket} (h : OnWire packets s) (hexclusive : s.Exclusive)
    {op : SendOp} (hop : s.Enabled op) :
    OnWire (packets ++ s.takenBy (machine s op).1) (machine s op).2 := by
  obtain ⟨holder, hheld⟩ := hexclusive hop.1
  have hstep := stepped hop
  generalize (machine s op).1 = answer at hstep ⊢
  generalize (machine s op).2 = s' at hstep ⊢
  -- with a holder that has no write everything was written
  have hresting : s.writes = [] → s.wire = frames packets := by
    intro hnone
    cases h with
    | undefined hu => simp [hop.1] at hu
    | resting _ hwire => exact hwire
    | writing hone => simp [hone] at hnone
  have hwriting : ∀ w, s.writes = [w] → ∃ before, packets = before ++ [w.packet] ∧
      w.packet.Written ∧ w.length = w.packet.body.frame.length ∧
      s.writeBuf.take w.length = w.packet.body.frame ∧ w.sent ≤ w.length ∧
      s.wire = frames before ++ w.packet.body.frame.take w.sent := by
    intro w hw
    cases h with
    | undefined hu => simp [hop.1] at hu
    | resting hnone => simp [hw] at hnone
    | @writing w' before hone htaken hwritten hlength hbuffer hsent hwire =>
      obtain rfl : w' = w := by simpa [hone] using hw
      exact ⟨before, htaken, hwritten, hlength, hbuffer, hsent, hwire⟩
  cases hstep with
  | pushed =>
    rw [takenBy_put, List.append_nil]
    exact h.frame rfl rfl rfl rfl
  | left =>
    rw [takenBy_nil, List.append_nil]
    exact h.frame rfl rfl rfl rfl
  | claimed =>
    rw [takenBy_nil, List.append_nil]
    exact h.frame rfl rfl rfl rfl
  | @sent c _ _ hc hsent =>
    obtain rfl := (hheld.claims c).mp hc
    exact hsent.onWire hheld.call.2.2 (hresting hheld.writes)
  | @transmitted i n sent length packet hi hn =>
    obtain ⟨rfl, rfl⟩ := hheld.write hi
    obtain ⟨before, htaken, hwritten, hlength, hbuffer, hsent, hwire⟩ := hwriting _ hheld.writes
    rw [takenBy_nil, List.append_nil]
    refine .writing hheld.setWrite.writes htaken hwritten hlength hbuffer hn ?_
    -- what is read from the buffer is the next part of the frame
    have hpart : (s.writeBuf.drop sent).take n = (packet.body.frame.drop sent).take n := by
      have hframe : packet.body.frame = s.writeBuf.take length := hbuffer.symm
      rw [hframe, List.drop_take, List.take_take, Nat.min_eq_left (by omega)]
    show s.wire ++ (s.writeBuf.drop sent).take n = _
    rw [hwire, hpart, List.append_assoc]
    congr 1
    exact (List.take_add ..).symm
  | @completed i length packet hi =>
    obtain ⟨rfl, rfl⟩ := hheld.write hi
    obtain ⟨before, htaken, hwritten, hlength, hbuffer, hsent, hwire⟩ := hwriting _ hheld.writes
    rw [takenBy_nil, List.append_nil]
    exact .writing hheld.setWrite.writes htaken hwritten hlength hbuffer le_rfl hwire
  | @failed i length sent packet hi =>
    obtain ⟨rfl, rfl⟩ := hheld.write hi
    obtain ⟨before, htaken, hwritten, hlength, hbuffer, hsent, hwire⟩ := hwriting _ hheld.writes
    rw [takenBy_nil, List.append_nil]
    exact .writing hheld.setWrite.writes htaken hwritten hlength hbuffer hsent hwire
  | @sentNext i length packet answer' _ hi hsent =>
    obtain ⟨rfl, rfl⟩ := hheld.write hi
    obtain ⟨before, htaken, hwritten, hlength, hbuffer, -, hwire⟩ := hwriting _ hheld.writes
    rw [takenBy_finish hheld.writes]
    refine hsent.onWire hheld.handler.2.2 ?_
    have hwhole : packet.body.frame.take length = packet.body.frame :=
      List.take_of_length_le hlength.ge
    show s.wire = _
    rw [hwire, htaken, frames_append, frames_written hwritten]
    exact congrArg (frames before ++ ·) hwhole

theorem onWire_after {ops : List SendOp} (hops : machine.Along Enabled new ops) :
    OnWire (taken ops) (machine.after new ops) := by
  induction ops using List.reverseRecOn with
  | nil => exact .resting rfl rfl
  | append_singleton ops op ih =>
    obtain ⟨hbefore, hop, -⟩ := Machine.along_append.mp hops
    rw [taken_concat hbefore, Machine.after_append]
    exact (ih hbefore).step (exclusive_after hbefore) hop

theorem Sent.putsOf (h : Sent s answer s') : WorkQueue.putsOf answer = [] := by
  cases h <;> rfl

/-- What is put into the queue is what `addSendPacket` was called with. -/
theorem putsOf_queueOps {ops : List SendOp} (hops : machine.Along Enabled new ops) :
    WorkQueue.putsOf (queueOps ops) = pushes ops := by
  have hstep : ∀ {s : SendQueue} {op : SendOp}, s.Enabled op →
      WorkQueue.putsOf (machine s op).1 = pushes [op] := by
    intro s op hop
    have hstep := stepped hop
    generalize (machine s op).1 = answer at hstep ⊢
    generalize (machine s op).2 = s' at hstep
    cases hstep with
    | sent _ hsent => exact hsent.putsOf
    | sentNext _ hsent => exact hsent.putsOf
    | pushed | left | claimed | transmitted | completed | failed => rfl
  unfold queueOps
  generalize (new : SendQueue) = s at hops
  induction ops generalizing s with
  | nil => rfl
  | cons op ops ih =>
    rw [Machine.outputs_cons, List.flatMap_cons, WorkQueue.putsOf, List.filterMap_append]
    have hcons : pushes (op :: ops) = pushes [op] ++ pushes ops := List.filterMap_append (l := [op])
    rw [hcons]
    exact congr (congrArg _ (hstep hops.1)) (ih _ hops.2)

theorem taken_append_sendPackets {ops : List SendOp} (hops : machine.Along Enabled new ops) :
    taken ops ++ (machine.after new ops).sendPackets = pushes ops := by
  obtain ⟨halong, hafter⟩ := queue_after hops
  have horder := WorkQueue.takes_append_waiting halong
  rw [hafter] at horder
  refine horder.trans ?_
  rw [WorkQueue.events, WorkQueue.puts_outputs, putsOf_queueOps hops]

/-- The socket was given the beginning of the frames of all packets. -/
theorem wire_isPrefix {ops : List SendOp} (hops : machine.Along Enabled new ops)
    (hdefined : (machine.after new ops).undefined = false) :
    (machine.after new ops).wire <+: frames (pushes ops) := by
  have hwire := onWire_after hops
  rw [← taken_append_sendPackets hops, frames_append]
  cases hwire with
  | undefined hundefined => simp [hdefined] at hundefined
  | resting _ hall =>
    rw [hall]
    exact List.prefix_append _ _
  | @writing w before _ htaken hwritten _ _ _ hpart =>
    rw [hpart, htaken, frames_append, frames_written hwritten]
    refine (List.prefix_append_right_inj _).mpr (List.take_prefix _ _) |>.trans ?_
    exact List.prefix_append _ _

/-- In the run the packets are taken in the order in which they were added, and
up to undefined behaviour the socket is given their frames in this order, by one
write at a time. -/
structure SentInOrder (ops : List SendOp) : Prop where
  order : taken ops ++ (machine.after new ops).sendPackets = pushes ops
  onWire : OnWire (taken ops) (machine.after new ops)
  wire : (machine.after new ops).undefined = false →
    (machine.after new ops).writes.length ≤ 1 ∧
      ∃ behind, frames (pushes ops) = (machine.after new ops).wire ++ behind

end

end SendQueue

open SendQueue

/-- **Packets are written in the order in which they were added**, each once and
none of them into the middle of another one, whatever threads add them. -/
theorem sent_in_order {ops : List SendOp} (hops : machine.Along Enabled new ops) :
    SentInOrder ops := by
  refine ⟨taken_append_sendPackets hops, onWire_after hops, ?_⟩
  intro hdefined
  obtain ⟨holder, hheld⟩ := exclusive_after hops hdefined
  obtain ⟨behind, hbehind⟩ := wire_isPrefix hops hdefined
  refine ⟨?_, behind, hbehind.symm⟩
  rw [hheld.writes]
  cases holder <;> simp [Holder.writes]

/-- Two calls: the packet of the second one is written by the handler of the
first write. -/
def twoCalls : List SendOp :=
  let packet : ControlPacket := ⟨{ controlPacketType := .pingresp }, .pingResp⟩
  [.push 0 packet, .check 0, .push 1 packet, .send 0, .check 1, .transmit 0 1, .transmit 0 1,
    .complete 0, .sendNext 0, .transmit 0 2, .complete 0, .sendNext 0]

theorem sent_in_order_twoCalls :
    machine.Along Enabled new twoCalls ∧ SentInOrder twoCalls :=
  have hops : machine.Along Enabled new twoCalls := by decide +kernel
  ⟨hops, sent_in_order hops⟩

/-! ## §5 Nothing is left -/

/-- The packet that is added is one that `serialize` writes. -/
def SendOp.Written : SendOp → Prop
  | .push _ packet => packet.Written
  | _ => True

namespace SendQueue

section

variable {s s' : SendQueue}

/-- All packets that wait are ones that `serialize` writes, and somebody is
about to take them. -/
structure Promised (s : SendQueue) : Prop where
  written : ∀ packet ∈ s.sendPackets, packet.Written
  promised : s.undefined = false → s.sendPackets ≠ [] →
    s.isSending = true ∨ ∃ c, s.calls c = .pushed

theorem promised_new : new.Promised := ⟨by simp [new], by simp [new]⟩

/-- `doSendPackages` hands the right on to the write it starts. -/
theorem Sent.promised {answer : SendAnswer} (h : Sent s answer s') (hsending : s.isSending = true)
    (hwritten : ∀ packet ∈ s.sendPackets, packet.Written) : s'.Promised := by
  cases h with
  | nothing hempty => exact ⟨hwritten, fun _ hwaiting => absurd hempty hwaiting⟩
  | undefined hqueue =>
    refine ⟨?_, fun hdefined => by cases hdefined⟩
    intro packet hpacket
    exact hwritten packet (by rw [hqueue]; exact List.mem_cons_of_mem _ hpacket)
  | refused hqueue hpacket => exact absurd (hwritten _ (by simp [hqueue])) hpacket
  | started hqueue =>
    refine ⟨?_, fun _ _ => .inl hsending⟩
    intro packet hpacket
    exact hwritten packet (by rw [hqueue]; exact List.mem_cons_of_mem _ hpacket)

/-- **Every step keeps it**, as long as no packet is added that is refused. -/
theorem Promised.step (h : s.Promised) (hexclusive : s.Exclusive) {op : SendOp} (hop : s.Enabled op)
    (hwritten : op.Written) : (machine s op).2.Promised := by
  obtain ⟨holder, hheld⟩ := hexclusive hop.1
  have hstep := stepped hop
  generalize (machine s op).1 = answer at hstep
  generalize (machine s op).2 = s' at hstep ⊢
  cases hstep with
  | @pushed c packet hc =>
    refine ⟨?_, fun _ _ => .inr ⟨c, by rw [calls_setCall, if_pos rfl]⟩⟩
    intro p hp
    rcases List.mem_append.mp hp with hp | hp
    · exact h.written p hp
    · rw [List.mem_singleton.mp hp]
      exact hwritten
  | left hc hsending => exact ⟨h.written, fun _ _ => .inl hsending⟩
  | claimed hc hsending => exact ⟨h.written, fun _ _ => .inl rfl⟩
  | @sent c _ _ hc hsent =>
    obtain rfl := (hheld.claims c).mp hc
    exact hsent.promised hheld.call.1 h.written
  | transmitted | completed | failed => exact ⟨h.written, h.promised⟩
  | sentNext hi hsent =>
    obtain ⟨rfl, rfl⟩ := hheld.write hi
    exact hsent.promised hheld.handler.1 h.written

theorem promised_after {ops : List SendOp} (hops : machine.Along Enabled new ops)
    (hwritten : ∀ op ∈ ops, op.Written) : (machine.after new ops).Promised := by
  induction ops using List.reverseRecOn with
  | nil => exact promised_new
  | append_singleton ops op ih =>
    obtain ⟨hbefore, hop, -⟩ := Machine.along_append.mp hops
    rw [Machine.after_append]
    exact (ih hbefore fun o ho => hwritten o (by simp [ho])).step (exclusive_after hbefore) hop
      (hwritten op (by simp))

/-- Nobody can go on without a new call of `addSendPacket`. -/
def AtRest (s : SendQueue) : Prop := ∀ op, s.Enabled op → ∃ c packet, op = .push c packet

/-- A write that is in flight can go on. -/
theorem inFlight_enabled (hdefined : s.undefined = false) {packet : ControlPacket}
    {length sent : Nat} (hwrites : s.writes = [⟨packet, length, .inFlight sent⟩])
    (hsent : sent ≤ length) : s.Enabled (.transmit 0 1) ∨ s.Enabled (.complete 0) := by
  rcases Nat.lt_or_eq_of_le hsent with hless | heq
  · have hmore : sent + 1 ≤ length := hless
    exact .inl ⟨hdefined, by simp [step, hwrites, hmore]⟩
  · exact .inr ⟨hdefined, by simp [step, hwrites, heq]⟩

/-- A write that did not fail can go on. -/
theorem AtRest.failed (h : s.AtRest) (hdefined : s.undefined = false) {w : Write}
    (hwrites : s.writes = [w]) (hsent : w.sent ≤ w.length) : w.status = .failed w.sent := by
  obtain ⟨packet, length, status⟩ := w
  cases status with
  | inFlight sent =>
    rcases inFlight_enabled hdefined hwrites hsent with hop | hop
    all_goals
      obtain ⟨c, p, hpush⟩ := h _ hop
      cases hpush
  | completed =>
    obtain ⟨c, p, hpush⟩ := h (.sendNext 0) ⟨hdefined, by simp [step, hwrites]⟩
    cases hpush
  | failed sent => rfl

/-- A call that has put its packet into the queue can go on. -/
theorem AtRest.calls (h : s.AtRest) (hdefined : s.undefined = false) (c : SendCallId) :
    s.calls c ≠ .pushed ∧ s.calls c ≠ .claimed := by
  refine ⟨?_, ?_⟩
  · intro hc
    obtain ⟨d, p, hpush⟩ := h (.check c) ⟨hdefined, by
      simp only [step, hc]
      split <;> rfl⟩
    cases hpush
  · intro hc
    obtain ⟨d, p, hpush⟩ := h (.send c) ⟨hdefined, by simp [step, hc]⟩
    cases hpush

/-- **When everybody is done**, a write has failed or nobody has the right to send
and nothing waits. -/
theorem AtRest.holder {ops : List SendOp} (hops : machine.Along Enabled new ops)
    (hwritten : ∀ packet ∈ pushes ops, packet.Written)
    (hdefined : (machine.after new ops).undefined = false)
    (hrest : (machine.after new ops).AtRest) :
    (∃ w, (machine.after new ops).HeldBy (.write w) ∧ w.status = .failed w.sent) ∨
      ((machine.after new ops).HeldBy .nobody ∧ (machine.after new ops).sendPackets = []) := by
  have hpromised := promised_after hops (by
    intro op hop
    cases op with
    | push c packet => exact hwritten packet (List.mem_filterMap.mpr ⟨_, hop, rfl⟩)
    | check | send | transmit | complete | fail | sendNext => trivial)
  have hwire := onWire_after hops
  obtain ⟨holder, hheld⟩ := exclusive_after hops hdefined
  cases holder with
  | call c => exact absurd ((hheld.claims c).mpr rfl) (hrest.calls hdefined c).2
  | write w =>
    refine .inl ⟨w, hheld, hrest.failed hdefined hheld.writes ?_⟩
    cases hwire with
    | undefined hundefined => simp [hdefined] at hundefined
    | resting hnone => simp [hheld.writes, Holder.writes] at hnone
    | @writing w' before hone _ _ _ _ hsent =>
      obtain rfl : w = w' := by simpa [hheld.writes, Holder.writes] using hone
      exact hsent
  | nobody =>
    have hsending := hheld.sending.mpr rfl
    refine .inr ⟨hheld, ?_⟩
    by_contra hwaiting
    rcases hpromised.promised hdefined hwaiting with hset | ⟨c, hc⟩
    · simp [hsending] at hset
    · exact (hrest.calls hdefined c).1 hc

/-- When nobody sends and nothing waits, everything was sent. -/
theorem HeldBy.wire_eq {ops : List SendOp} (hops : machine.Along Enabled new ops)
    (hheld : (machine.after new ops).HeldBy .nobody)
    (hdefined : (machine.after new ops).undefined = false)
    (hempty : (machine.after new ops).sendPackets = []) :
    (machine.after new ops).wire = frames (pushes ops) := by
  have horder := taken_append_sendPackets hops
  rw [hempty, List.append_nil] at horder
  rw [← horder]
  have hwire := onWire_after hops
  cases hwire with
  | undefined hundefined => simp [hdefined] at hundefined
  | resting _ hall => exact hall
  | writing hone => simp [hheld.writes, Holder.writes] at hone

end

end SendQueue

open SendQueue

theorem twoCalls_atRest : (machine.after new twoCalls).AtRest := by
  have hcalls : ∀ c, (machine.after new twoCalls).calls c = .done ∨
      (machine.after new twoCalls).calls c = .start
    | 0 => .inl rfl
    | 1 => .inl rfl
    | _ + 2 => .inr rfl
  have hwrites : (machine.after new twoCalls).writes = [] := rfl
  rintro op ⟨-, hop⟩
  cases op with
  | push c packet => exact ⟨c, packet, rfl⟩
  | check c | send c => rcases hcalls c with hc | hc <;> simp [step, hc] at hop
  | transmit | complete | fail | sendNext => simp [step, hwrites] at hop

end Acatl.Mqtt

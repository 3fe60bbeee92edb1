/-
Acatl.Mqtt.SendProgress — the sending side of a connection comes to an end.

A call of `addSendPacket` makes three steps at most, and its packet two more and
one for each piece of its frame that the socket takes; so the threads cannot make
steps for ever without a new call, and whatever state they have come to, they can
go on until everything was sent.

  §1  `Todo`: how many steps are left;
  §2  `sending_ends`.
-/
import Acatl.Mqtt.SendQueue
import Mathlib.Data.Finset.Card

namespace Acatl.Mqtt

open Acatl.Lib

/-! ## §1 What is left to do -/

/-- A step that the threads make on their own: neither a new call nor an error of
the socket. -/
def SendOp.Own : SendOp → Prop
  | .push _ _ | .fail _ => False
  | .check _ | .send _ | .transmit _ _ | .complete _ | .sendNext _ => True

theorem ControlPacket.HasRoom.mono {packet : ControlPacket} {size size' : Nat}
    (h : packet.HasRoom size) (hsize : size ≤ size') : packet.HasRoom size' :=
  ⟨h.serializable, h.room.imp (fun hfits => hfits.trans hsize) id⟩

/-- What a call of `addSendPacket` adds, with its first step. -/
def SendOp.cost : SendOp → Nat
  | .push _ packet => 5 + (frames [packet]).length
  | _ => 0

namespace SendQueue

/-- How many steps the holder can make until it gives the right back or calls
`doSendPackages`. -/
def Holder.steps : Holder → Nat
  | .nobody => 0
  | .call _ => 1
  | .write ⟨_, length, .inFlight sent⟩ => 2 + (length - sent)
  | .write ⟨_, _, .completed⟩ => 1
  | .write ⟨_, _, .failed _⟩ => 0

/-- How many steps some packets in the queue are good for. -/
def queueSteps (packets : List ControlPacket) : Nat :=
  2 * packets.length + (frames packets).length

/-- So many steps can be made, at most, before `addSendPacket` is called again:
two by every call that has put its packet into the queue, those of the holder, and
those for the packets that wait. -/
def Todo (s : SendQueue) (n : Nat) : Prop :=
  s.undefined = false → ∃ (holder : Holder) (pushed : Finset SendCallId), s.HeldBy holder ∧
    (∀ c, s.calls c = .pushed ↔ c ∈ pushed) ∧
    n = 2 * pushed.card + queueSteps s.sendPackets + holder.steps

theorem todo_new : new.Todo 0 :=
  fun _ => ⟨.nobody, ∅, ⟨by simp [new], by simp [new], rfl⟩, by simp [new], rfl⟩

section

variable {s s' : SendQueue} {holder : Holder} {pushed : Finset SendCallId}

theorem queueSteps_cons (packet : ControlPacket) (packets : List ControlPacket) :
    queueSteps (packet :: packets) = 2 + (frames [packet]).length + queueSteps packets := by
  have hframes : frames (packet :: packets) = frames [packet] ++ frames packets :=
    frames_append [packet] packets
  rw [queueSteps, queueSteps, hframes, List.length_append, List.length_cons]
  omega

theorem queueSteps_concat (packets : List ControlPacket) (packet : ControlPacket) :
    queueSteps (packets ++ [packet]) = queueSteps packets + 2 + (frames [packet]).length := by
  rw [queueSteps, queueSteps, frames_append, List.length_append, List.length_append,
    List.length_singleton]
  omega

/-- A piece of a frame is not empty. -/
theorem Enabled.transmit_pos {i n : Nat} (h : s.Enabled (.transmit i n)) : 0 < n := by
  have hstep := h.2
  unfold step at hstep
  dsimp only at hstep
  split at hstep
  · split at hstep
    · rename_i hn
      exact hn.1
    · cases hstep
  · cases hstep

/-- The write that fails is in flight. -/
theorem Enabled.fail {i : Nat} (h : s.Enabled (.fail i)) :
    ∃ packet length sent, s.writes[i]? = some ⟨packet, length, .inFlight sent⟩ := by
  have hstep := stepped h
  generalize (machine s (.fail i)).1 = answer at hstep
  generalize (machine s (.fail i)).2 = s' at hstep
  cases hstep with
  | failed hi => exact ⟨_, _, _, hi⟩

/-- A call that goes on is no longer one that has only put its packet into the
queue. -/
theorem calls_erase (hpushed : ∀ d, s.calls d = .pushed ↔ d ∈ pushed) {c : SendCallId}
    {status : SendCallStatus} (hstatus : status ≠ .pushed) (d : SendCallId) :
    (s.setCall c status).calls d = .pushed ↔ d ∈ pushed.erase c := by
  rw [calls_setCall, Finset.mem_erase]
  split
  · rename_i hdc
    exact iff_of_false hstatus fun h => h.1 hdc
  · rename_i hdc
    rw [hpushed, and_iff_right hdc]

/-- `doSendPackages` leaves less to do than the one who called it had. -/
theorem Sent.todo {answer : SendAnswer} (h : Sent s answer s') (hsending : s.isSending = true)
    (hclaims : ∀ c, s.calls c ≠ .claimed) (hwrites : s.writes = [])
    (hpushed : ∀ c, s.calls c = .pushed ↔ c ∈ pushed) :
    ∃ k, s'.Todo k ∧ k ≤ 2 * pushed.card + queueSteps s.sendPackets := by
  cases h with
  | nothing =>
    refine ⟨_, fun _ => ⟨.nobody, pushed, ⟨by simp, by simpa using hclaims, hwrites⟩, hpushed,
      rfl⟩, ?_⟩
    exact le_rfl
  | undefined => exact ⟨0, fun hdefined => (by cases hdefined), Nat.zero_le _⟩
  | refused hqueue =>
    refine ⟨_, fun _ => ⟨.nobody, pushed, ⟨by simp, by simpa using hclaims, hwrites⟩, hpushed,
      rfl⟩, ?_⟩
    rw [hqueue, queueSteps_cons]
    simp only [Holder.steps]
    omega
  | @started packet rest buffer hqueue hpacket =>
    refine ⟨_, fun _ => ⟨.write _, pushed,
      ⟨by simp [hsending], by simpa using hclaims, by rw [hwrites]; rfl⟩, hpushed, rfl⟩, ?_⟩
    rw [hqueue, queueSteps_cons, frames_written hpacket]
    simp only [Holder.steps]
    omega

/-- **Every step leaves less to do than it found**, but for what a new call
adds. -/
theorem Todo.step {n : Nat} (h : s.Todo n) {op : SendOp} (hop : s.Enabled op) :
    ∃ k, (machine s op).2.Todo k ∧ k + 1 ≤ n + op.cost := by
  obtain ⟨holder, pushed, hheld, hpushed, rfl⟩ := h hop.1
  have hstep := stepped hop
  generalize (machine s op).1 = answer at hstep
  generalize (machine s op).2 = s' at hstep ⊢
  -- a call that is not behind its claim does not hold the right
  have hother : ∀ {c}, s.calls c ≠ .claimed → holder ≠ .call c := by
    intro c hc heq
    exact hc ((hheld.claims c).mpr heq)
  have herase : ∀ {c}, s.calls c = .pushed → (pushed.erase c).card + 1 = pushed.card := by
    intro c hc
    exact Finset.card_erase_add_one ((hpushed c).mp hc)
  cases hstep with
  | @pushed c packet hc =>
    have hqueue : ({ s with sendPackets := s.sendPackets ++ [packet] } : SendQueue).HeldBy holder :=
      ⟨hheld.sending, hheld.claims, hheld.writes⟩
    have hnew : c ∉ pushed := by
      rw [← hpushed, hc]
      simp
    refine ⟨_, fun _ => ⟨holder, insert c pushed,
      hqueue.setCall (hother (by simp [hc])) (by simp), ?_, rfl⟩, ?_⟩
    · intro d
      rw [calls_setCall, Finset.mem_insert]
      split
      · rename_i hdc
        simp [hdc]
      · rename_i hdc
        simp [hdc, hpushed]
    · show 2 * (insert c pushed).card + queueSteps (s.sendPackets ++ [packet]) + holder.steps + 1 ≤
        _
      rw [Finset.card_insert_of_notMem hnew, queueSteps_concat, SendOp.cost]
      omega
  | @left c hc =>
    refine ⟨_, fun _ => ⟨holder, pushed.erase c,
      hheld.setCall (hother (by simp [hc])) (by simp), calls_erase hpushed (by simp), rfl⟩, ?_⟩
    have hcard := herase hc
    show 2 * (pushed.erase c).card + queueSteps s.sendPackets + holder.steps + 1 ≤ _
    omega
  | @claimed c hc hsending =>
    obtain rfl := hheld.sending.mp hsending
    refine ⟨_, fun _ => ⟨.call c, pushed.erase c, hheld.claim, calls_erase hpushed (by simp), rfl⟩,
      ?_⟩
    have hcard := herase hc
    simp only [Holder.steps]
    show 2 * (pushed.erase c).card + queueSteps s.sendPackets + 1 + 1 ≤ _
    omega
  | @sent c _ _ hc hsent =>
    obtain rfl := (hheld.claims c).mp hc
    obtain ⟨hsending, hclaims, hwrites⟩ := hheld.call
    obtain ⟨k, hk, hless⟩ := hsent.todo hsending hclaims hwrites (calls_erase hpushed (by simp))
    have hcard : (pushed.erase c).card ≤ pushed.card := Finset.card_erase_le
    refine ⟨k, hk, ?_⟩
    have hqueue : k ≤ 2 * (pushed.erase c).card + queueSteps s.sendPackets := hless
    simp only [Holder.steps]
    omega
  | @transmitted i n sent length packet hi hn =>
    obtain ⟨rfl, rfl⟩ := hheld.write hi
    have hpos := hop.transmit_pos
    have hwire : ({ s with wire := s.wire ++ (s.writeBuf.drop sent).take n } : SendQueue).HeldBy
        (.write ⟨packet, length, .inFlight sent⟩) := ⟨hheld.sending, hheld.claims, hheld.writes⟩
    refine ⟨_, fun _ => ⟨_, pushed, hwire.setWrite, hpushed, rfl⟩, ?_⟩
    simp only [Holder.steps]
    show 2 * pushed.card + queueSteps s.sendPackets + (2 + (length - (sent + n))) + 1 ≤ _
    omega
  | @completed i length packet hi =>
    obtain ⟨rfl, rfl⟩ := hheld.write hi
    refine ⟨_, fun _ => ⟨_, pushed, hheld.setWrite, hpushed, rfl⟩, ?_⟩
    simp only [Holder.steps]
    show 2 * pushed.card + queueSteps s.sendPackets + 1 + 1 ≤ _
    omega
  | @failed i length sent packet hi =>
    obtain ⟨rfl, rfl⟩ := hheld.write hi
    refine ⟨_, fun _ => ⟨_, pushed, hheld.setWrite, hpushed, rfl⟩, ?_⟩
    simp only [Holder.steps]
    show 2 * pushed.card + queueSteps s.sendPackets + 0 + 1 ≤ _
    omega
  | @sentNext i length packet answer' _ hi hsent =>
    obtain ⟨rfl, rfl⟩ := hheld.write hi
    obtain ⟨hsending, hclaims, hwrites⟩ := hheld.handler
    obtain ⟨k, hk, hless⟩ := hsent.todo hsending hclaims hwrites hpushed
    exact ⟨k, hk, Nat.succ_le_succ hless⟩

theorem todo_after {ops : List SendOp} (hops : machine.Along Enabled new ops) :
    ∃ n, (machine.after new ops).Todo n := by
  refine Machine.inv_along (fun s => ∃ n, s.Todo n) ?_ ⟨0, todo_new⟩ hops
  rintro s op ⟨n, hn⟩ hop
  obtain ⟨k, hk, -⟩ := hn.step hop
  exact ⟨k, hk⟩

theorem sum_cost (ops : List SendOp) :
    (ops.map SendOp.cost).sum = 5 * (pushes ops).length + (frames (pushes ops)).length := by
  induction ops with
  | nil => rfl
  | cons op ops ih =>
    rw [List.map_cons, List.sum_cons, ih]
    cases op with
    | push c packet =>
      have hpushes : pushes (.push c packet :: ops) = [packet] ++ pushes ops := rfl
      rw [hpushes, frames_append, List.length_append, List.length_append, List.length_singleton,
        SendOp.cost]
      omega
    | check | send | transmit | complete | fail | sendNext => exact Nat.zero_add _

end

/-! ## §2 Everything is sent -/

/-- The buffer, which never gets smaller, has room for all packets that wait. -/
structure Roomy (s : SendQueue) : Prop where
  defined : s.undefined = false
  size : 64 ≤ s.writeBuf.length
  waiting : ∀ packet ∈ s.sendPackets, packet.HasRoom 64

/-- No write has failed. -/
def Unfailed (s : SendQueue) : Prop := ∀ w ∈ s.writes, w.status ≠ .failed w.sent

section

variable {s s' : SendQueue}

theorem roomy_new : new.Roomy := ⟨rfl, by simp [new], by simp [new]⟩

theorem Sent.roomy {answer : SendAnswer} (h : Sent s answer s') (hroomy : s.Roomy) : s'.Roomy := by
  obtain ⟨hdefined, hsize, hwaiting⟩ := hroomy
  cases h with
  | nothing => exact ⟨hdefined, hsize, hwaiting⟩
  | undefined hqueue hroom =>
    rw [hqueue, List.forall_mem_cons] at hwaiting
    exact absurd (hwaiting.1.mono hsize) hroom
  | refused hqueue =>
    rw [hqueue, List.forall_mem_cons] at hwaiting
    exact ⟨hdefined, hsize, hwaiting.2⟩
  | started hqueue hpacket hbuffer hgrown =>
    rw [hqueue, List.forall_mem_cons] at hwaiting
    exact ⟨hdefined, hsize.trans hgrown, hwaiting.2⟩

/-- **Every step keeps it**, as long as no packet is added that has no room. -/
theorem Roomy.step (h : s.Roomy) {op : SendOp} (hop : s.Enabled op)
    (hpushes : ∀ packet ∈ pushes [op], packet.HasRoom 64) : (machine s op).2.Roomy := by
  have hstep := stepped hop
  generalize (machine s op).1 = answer at hstep
  generalize (machine s op).2 = s' at hstep ⊢
  cases hstep with
  | @pushed c packet =>
    refine ⟨h.defined, h.size, ?_⟩
    intro p hp
    rcases List.mem_append.mp hp with hp | hp
    · exact h.waiting p hp
    · exact hpushes p hp
  | sent _ hsent | sentNext _ hsent => exact hsent.roomy ⟨h.defined, h.size, h.waiting⟩
  | left | claimed | transmitted | completed | failed => exact ⟨h.defined, h.size, h.waiting⟩

theorem roomy_after {ops : List SendOp} (hops : machine.Along Enabled new ops)
    (hpushes : ∀ packet ∈ pushes ops, packet.HasRoom 64) : (machine.after new ops).Roomy := by
  induction ops using List.reverseRecOn with
  | nil => exact roomy_new
  | append_singleton ops op ih =>
    obtain ⟨hbefore, hop, -⟩ := Machine.along_append.mp hops
    rw [pushes, List.filterMap_append, List.forall_mem_append] at hpushes
    rw [Machine.after_append]
    exact (ih hbefore hpushes.1).step hop hpushes.2

theorem Sent.unfailed {answer : SendAnswer} (h : Sent s answer s') (hunfailed : s.Unfailed) :
    s'.Unfailed := by
  cases h with
  | nothing | undefined | refused => exact hunfailed
  | started => exact List.forall_mem_append.mpr ⟨hunfailed, by simp⟩

/-- A write fails when the socket says so. -/
theorem Unfailed.step (h : s.Unfailed) {op : SendOp} (hop : s.Enabled op)
    (hfail : ∀ i, op ≠ .fail i) : (machine s op).2.Unfailed := by
  have hstep := stepped hop
  generalize (machine s op).1 = answer at hstep
  generalize (machine s op).2 = s' at hstep ⊢
  have hset : ∀ (i : Nat) (w : Write), w.status ≠ .failed w.sent →
      ∀ w' ∈ s.writes.set i w, w'.status ≠ .failed w'.sent := by
    intro i w hw w' hw'
    rcases List.mem_or_eq_of_mem_set hw' with hold | rfl
    · exact h w' hold
    · exact hw
  cases hstep with
  | pushed | left | claimed => exact h
  | sent _ hsent => exact hsent.unfailed h
  | transmitted | completed => exact hset _ _ (by simp)
  | failed => exact absurd rfl (hfail _)
  | sentNext _ hsent => exact hsent.unfailed fun w hw => h w (List.mem_of_mem_eraseIdx hw)

theorem unfailed_after {ops : List SendOp} (hops : machine.Along Enabled new ops)
    (hfail : ∀ op ∈ ops, ∀ i, op ≠ .fail i) : (machine.after new ops).Unfailed := by
  induction ops using List.reverseRecOn with
  | nil => simp [Unfailed, new]
  | append_singleton ops op ih =>
    obtain ⟨hbefore, hop, -⟩ := Machine.along_append.mp hops
    rw [List.forall_mem_append] at hfail
    rw [Machine.after_append]
    exact (ih hbefore hfail.1).step hop (hfail.2 op (by simp))

/-- The threads can go on until everybody is done. -/
theorem exists_atRest {ops : List SendOp} (hops : machine.Along Enabled new ops) :
    ∃ more, (∀ op ∈ more, op.Own) ∧ machine.Along Enabled new (ops ++ more) ∧
      (machine.after new (ops ++ more)).AtRest := by
  have hdecrease : ∀ (s : SendQueue) (op : SendOp) (n : Nat), s.Todo n → s.Enabled op → op.Own →
      ∃ k, (machine s op).2.Todo k ∧ k < n := by
    intro s op n hn hop hown
    obtain ⟨k, hk, hless⟩ := hn.step hop
    have hcost : op.cost = 0 := by
      cases op with
      | push => exact hown.elim
      | check | send | transmit | complete | fail | sendNext => rfl
    exact ⟨k, hk, by omega⟩
  obtain ⟨n, hn⟩ := todo_after hops
  obtain ⟨more, hmore, hown, hlast⟩ := Machine.exists_rest Todo SendOp.Own hdecrease hn
  have hall : machine.Along Enabled new (ops ++ more) := Machine.along_append.mpr ⟨hops, hmore⟩
  refine ⟨more, hown, hall, ?_⟩
  rw [← Machine.after_append] at hlast
  intro op hop
  cases op with
  | push c packet => exact ⟨c, packet, rfl⟩
  | check | send | transmit | complete | sendNext => exact (hlast _ hop trivial).elim
  | fail i =>
    -- a write that could fail could also go on
    exfalso
    obtain ⟨packet, length, sent, hi⟩ := hop.fail
    obtain ⟨holder, hheld⟩ := exclusive_after hall hop.1
    obtain ⟨rfl, rfl⟩ := hheld.write hi
    have hsent : sent ≤ length := by
      cases onWire_after hall with
      | undefined hundefined => simp [hop.1] at hundefined
      | resting hnone => simp [hheld.writes, Holder.writes] at hnone
      | @writing w before hone _ _ _ _ hsent =>
        obtain rfl : _ = w := by simpa [hheld.writes, Holder.writes] using hone
        exact hsent
    rcases inFlight_enabled hop.1 hheld.writes hsent with hnext | hnext
    · exact hlast _ hnext trivial
    · exact hlast _ hnext trivial

end

end SendQueue

open SendQueue

/-- The number of steps is bounded by the calls and the bytes they send; and
whatever has happened, everything can be sent. -/
structure SendingEnds (ops : List SendOp) : Prop where
  bounded : ops.length ≤ 5 * (pushes ops).length + (frames (pushes ops)).length
  sent : ∃ more, (∀ op ∈ more, op.Own) ∧ machine.Along Enabled new (ops ++ more) ∧
    (machine.after new (ops ++ more)).AtRest ∧
    ((∀ packet ∈ pushes ops, packet.HasRoom 64) → (∀ op ∈ ops, ∀ i, op ≠ .fail i) →
      (machine.after new (ops ++ more)).undefined = false ∧
      (machine.after new (ops ++ more)).wire = frames (pushes ops))

/-- **Sending comes to an end**: without new calls the threads stop, after so many
steps at most; and from every state that they can reach they can go on until the
frames of all packets are written, if all have room and the socket does not
fail. -/
theorem sending_ends {ops : List SendOp} (hops : machine.Along Enabled new ops) :
    SendingEnds ops := by
  refine ⟨?_, ?_⟩
  · have hlength := Machine.length_along Todo SendOp.cost (fun _ _ _ hn hop => hn.step hop) todo_new
      hops
    rwa [sum_cost, Nat.zero_add] at hlength
  · obtain ⟨more, hown, hall, hrest⟩ := exists_atRest hops
    refine ⟨more, hown, hall, hrest, ?_⟩
    intro hroom hfail
    have hnone : pushes more = [] := by
      refine List.filterMap_eq_nil_iff.mpr fun op hop => ?_
      cases op with
      | push => exact (hown _ hop).elim
      | check | send | transmit | complete | fail | sendNext => rfl
    have hpushes : pushes (ops ++ more) = pushes ops :=
      List.filterMap_append.trans ((congrArg (pushes ops ++ ·) hnone).trans (List.append_nil _))
    rw [← hpushes] at hroom ⊢
    have hdefined := (roomy_after hall hroom).defined
    have hunfailed := unfailed_after hall (by
      intro op hop i
      rcases List.mem_append.mp hop with hop | hop
      · exact hfail op hop i
      · rintro rfl
        exact hown _ hop)
    have hwritten : ∀ packet ∈ pushes (ops ++ more), packet.Written := fun packet hpacket =>
      ControlPacket.written_of_serializable (hroom packet hpacket).serializable
    refine ⟨hdefined, ?_⟩
    rcases hrest.holder hall hwritten hdefined with ⟨w, hheld, hfailed⟩ | ⟨hheld, hempty⟩
    · exact absurd hfailed (hunfailed w (by simp [hheld.writes, Holder.writes]))
    · exact hheld.wire_eq hall hdefined hempty

/-- The second packet waits while the first one is being written. -/
theorem sending_ends_twoCalls : SendingEnds (twoCalls.take 6) :=
  sending_ends (by decide +kernel)

end Acatl.Mqtt

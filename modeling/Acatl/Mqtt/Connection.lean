/-
Acatl.Mqtt.Connection — `examples/mqtt_broker/connection.h`, the reading side:
`handle_read` takes the bytes of one read apart, hands the packets to the
processor and the answers to `addSendPacket`, and reads on or does not.

Where a read ends is up to the network, and a packet can be spread over any
number of them. `handleByte` is what happens at a single byte.

What `handle_read` calls works on what all connections share. It is a parameter
here (`Surroundings`), so that what other threads do between two calls can be
part of it.

  `reads_eq_bytes`   where the reads end makes no difference.
-/
import Acatl.Mqtt.ParserResults
import Acatl.Mqtt.Processor

namespace Acatl.Mqtt

open Acatl.Lib

/-! ## §1 handle_read -/

/-- `Processor::processPacket` and `addSendPacket`, on some shared state. -/
structure Surroundings (β : Type) where
  processPacket : β → ControlPacket → ErrorCode → CallResult × ErrorCode × β
  addSendPacket : β → ControlPacket → β

/-- Whether a connection reads on. -/
inductive ReadStatus where
  | reading
  /-- `handle_read` has returned without `do_read`. -/
  | returned
  /-- What `consumePacket` returned was null. -/
  | nullPacket
  | faulted (fault : Fault)
  deriving DecidableEq

/-- The reading side of `Connection`. -/
structure Reader (β : Type) where
  mqttParser : MQTTParser := .new
  status : ReadStatus := .reading
  shared : β

variable {β : Type}

namespace Reader

/-- The inner loop of `handle_read` when it has ended, with the bytes behind
it. -/
structure Parsed where
  ret : Tribool
  errc : ErrorCode
  mqttParser : MQTTParser
  rest : List Call

/-- `while(ret.isIndeterminate() && index < length)`. -/
def parseLoop (sort : TopicFilters → TopicFilters) (mqttParser : MQTTParser) (ret : Tribool)
    (errc : ErrorCode) : List Call → Parsed
  | [] => ⟨ret, errc, mqttParser, []⟩
  | call :: calls =>
    if ret.isIndeterminate then
      let r := mqttParser.parse sort call errc
      parseLoop sort r.parser r.ret r.ec calls
    else
      ⟨ret, errc, mqttParser, call :: calls⟩

/-- `handle_read`, where `ret` is true. -/
def handlePacket (env : Surroundings β) (c : Reader β) (errc : ErrorCode) : Reader β :=
  let (packet, mqttParser) := c.mqttParser.consumePacket
  let c := { c with mqttParser := mqttParser }
  match packet with
  | none => { c with status := .nullPacket }
  | some packet =>
    let (result, errc, shared) := env.processPacket c.shared packet errc
    match result with
    | .fault fault => { c with shared := shared, status := .faulted fault }
    | .returned state reply =>
      let c := { c with shared := reply.elim shared (env.addSendPacket shared) }
      if errc.isSome then
        { c with status := .returned }
      else if state = .close then
        { c with status := .returned }
      else
        c

/-- What `handle_read` does with a result of the parser. -/
def handleResult (env : Surroundings β) (c : Reader β) (ret : Tribool) (errc : ErrorCode) :
    Reader β :=
  if ret.isFalse ∨ errc.isSome then
    -- close the connection
    { c with status := .returned }
  else if ret.isTrue then
    c.handlePacket env errc
  else
    c

theorem length_parseLoop (sort : TopicFilters → TopicFilters) (mqttParser : MQTTParser)
    (ret : Tribool) (errc : ErrorCode) (calls : List Call) :
    (parseLoop sort mqttParser ret errc calls).rest.length ≤ calls.length := by
  induction calls generalizing mqttParser ret errc with
  | nil => exact le_rfl
  | cons call calls ih =>
    rw [parseLoop]
    split
    · exact (ih _ _ _).trans (Nat.le_succ _)
    · exact le_rfl

/-- `handle_read`, of a connection that is reading. -/
def handleRead (sort : TopicFilters → TopicFilters) (env : Surroundings β) (c : Reader β) :
    List Call → Reader β
  -- `do_read`
  | [] => c
  | call :: calls =>
    let r := parseLoop sort c.mqttParser .indeterminate none (call :: calls)
    let c := { c with mqttParser := r.mqttParser }.handleResult env r.ret r.errc
    if c.status = .reading then handleRead sort env c r.rest else c
termination_by calls => calls.length
decreasing_by
  rw [parseLoop, if_pos (by rfl)]
  exact Nat.lt_succ_of_le (length_parseLoop ..)

/-- One read after the other, as long as the connection reads. -/
def reads (sort : TopicFilters → TopicFilters) (env : Surroundings β) :
    Machine (Reader β) (List Call) Unit := fun c calls =>
  ((), if c.status = .reading then c.handleRead sort env calls else c)

/-- One byte after the other. -/
def handleByte (sort : TopicFilters → TopicFilters) (env : Surroundings β) :
    Machine (Reader β) Call Unit := fun c call =>
  ((), if c.status = .reading then
    let r := c.mqttParser.parse sort call none
    { c with mqttParser := r.parser }.handleResult env r.ret r.ec
  else c)

end Reader

/-! ## §2 Reads and bytes -/

/-- A CONNECT packet that asks for more has no error. -/
theorem ConnectParser.Sound.ec_of_indeterminate {p : ConnectParser} (h : Sound p) {uuid : Bytes}
    {byte : UInt8} (hret : (ConnectParser.parse uuid p byte none).ret = .indeterminate) :
    (ConnectParser.parse uuid p byte none).ec = none := by
  by_contra hec
  have hdisagrees : ¬ (ConnectParser.parse uuid p byte none).Agrees := by
    unfold ParseResult.Agrees
    simp [hret, hec]
  rw [(h.parse uuid byte).2] at hdisagrees
  -- of the two kinds of calls that do not agree one returns false and one true
  by_cases hsilent : SilentFailure p
  · simp [(parse_failed hsilent.1 uuid byte none).1] at hret
  · have hlate : LateSuccess p byte := by tauto
    obtain ⟨hlength, hends⟩ := hlate
    have hnonzero : p.length ≠ 0 := by omega
    cases h with
    | accepted _ hready => simp [EndsEmpty, hready] at hends
    | rejected _ hready => simp [EndsEmpty, hready] at hends
    | exhausted _ hzero => exact hnonzero hzero
    | continuing _ hstatus => rcases hstatus with hs | hs <;> simp [hs, EndsEmpty] at hends
    | working hret' hready hclean =>
      have hworked := worked_switch uuid (p := { p with length := p.length - 1 }) hret' hready
        hclean byte
      generalize hswitch : switch uuid { p with length := p.length - 1 } byte none = r at hworked
      cases hworked with
      | late _ htrue _ hsame =>
        unfold ConnectParser.parse at hret
        rw [BodyParser.parse_true hnonzero hswitch htrue, if_pos (by simp [hsame, hlength])] at hret
        cases hret
      | working hnot | rejected hnot | accepted hnot | continuing hnot => exact hnot hends

/-- While the parser asks for more it has no error to report. -/
theorem MQTTParser.Sound.ec_of_indeterminate {p : MQTTParser} (h : p.Sound)
    {sort : TopicFilters → TopicFilters} {call : Call}
    (hret : (p.parse sort call none).ret = .indeterminate) :
    (p.parse sort call none).ec = none := by
  by_contra hec
  have hdisagrees : ¬ (p.parse sort call none).Agrees := by
    unfold ParseResult.Agrees
    simp [hret, hec]
  rw [(h.parse sort call).2] at hdisagrees
  by_cases hready : p.status = .ready
  · simp [parse_ready hready] at hret
  · have hconnect : p.status = .connect := by
      unfold Regular at hdisagrees
      tauto
    rw [parse_connect hconnect, finish_ret] at hret
    rw [parse_connect hconnect, finish_ec] at hec
    exact hec ((h.connect hconnect).ec_of_indeterminate hret)

namespace Reader

variable {sort : TopicFilters → TopicFilters} {env : Surroundings β}

theorem handleByte_reading {c : Reader β} (hc : c.status = .reading) (call : Call) :
    (handleByte sort env c call).2 = handleResult env
      { c with mqttParser := (c.mqttParser.parse sort call none).parser }
      (c.mqttParser.parse sort call none).ret (c.mqttParser.parse sort call none).ec := by
  simp [handleByte, hc]

/-- A connection that does not read on ignores what comes. -/
theorem after_stopped {c : Reader β} (hc : c.status ≠ .reading) (calls : List Call) :
    (handleByte sort env).after c calls = c := by
  induction calls with
  | nil => rfl
  | cons call calls ih =>
    have hsame : (handleByte sort env c call).2 = c := by simp [handleByte, hc]
    rw [Machine.after_cons, hsame, ih]

/-- What happens to a parser that has succeeded or failed: the connection has
its packet taken, or it is closed. -/
theorem handleResult_eq_or (c : Reader β) (ret : Tribool) (errc : ErrorCode) :
    (c.handleResult env ret errc).mqttParser = c.mqttParser ∨
    (c.handleResult env ret errc).mqttParser = c.mqttParser.consumePacket.2 := by
  unfold handleResult
  split
  · exact .inl rfl
  · split
    · right
      unfold handlePacket
      dsimp only
      split
      · rfl
      · split
        · rfl
        · split
          · rfl
          · split <;> rfl
    · exact .inl rfl

/-- The parser between two bytes. -/
theorem sound_handleResult {c : Reader β} (h : c.mqttParser.Sound) (ret : Tribool)
    (errc : ErrorCode) : (c.handleResult env ret errc).mqttParser.Sound := by
  rcases @handleResult_eq_or _ env c ret errc with hsame | hconsumed
  · rwa [hsame]
  · rw [hconsumed]
    exact .of_status (.inl rfl)

/-- A loop that has its result does not go on. -/
theorem parseLoop_det (mqttParser : MQTTParser) (b : Bool) (errc : ErrorCode) (calls : List Call) :
    parseLoop sort mqttParser (.det b) errc calls = ⟨.det b, errc, mqttParser, calls⟩ := by
  cases calls <;> simp [parseLoop]

/-- **The bytes that the inner loop reads, one after the other.** -/
theorem after_parseLoop (calls : List Call) : ∀ (call : Call) (c : Reader β),
    c.status = .reading → c.mqttParser.Sound →
    let r := parseLoop sort c.mqttParser .indeterminate none (call :: calls)
    r.mqttParser.Sound ∧ (handleByte sort env).after c (call :: calls) =
      (handleByte sort env).after
        ({ c with mqttParser := r.mqttParser }.handleResult env r.ret r.errc) r.rest := by
  induction calls with
  | nil =>
    intro call c hc hsound
    have hnext := (hsound.parse sort call).1
    rw [Machine.after_cons, handleByte_reading hc]
    exact ⟨hnext, rfl⟩
  | cons next calls ih =>
    intro call c hc hsound
    have hnext := (hsound.parse sort call).1
    rw [Machine.after_cons, handleByte_reading hc, parseLoop, if_pos (by rfl)]
    dsimp only
    cases hret : (c.mqttParser.parse sort call none).ret with
    | det b =>
      rw [parseLoop_det]
      exact ⟨hnext, rfl⟩
    | indeterminate =>
      -- nothing happens at this byte but in the parser
      have hquiet : Reader.handleResult env
          { c with mqttParser := (c.mqttParser.parse sort call none).parser } .indeterminate none =
          { c with mqttParser := (c.mqttParser.parse sort call none).parser } := by
        simp [handleResult]
      rw [hsound.ec_of_indeterminate hret, hquiet]
      exact ih next { c with mqttParser := (c.mqttParser.parse sort call none).parser } hc hnext

/-- `handle_read` is its bytes. -/
theorem handleRead_eq (c : Reader β) (calls : List Call) (hc : c.status = .reading)
    (hsound : c.mqttParser.Sound) :
    c.handleRead sort env calls = (handleByte sort env).after c calls ∧
      (c.handleRead sort env calls).mqttParser.Sound := by
  match calls with
  | [] =>
    rw [handleRead]
    exact ⟨rfl, hsound⟩
  | call :: calls =>
    obtain ⟨hnext, hafter⟩ := @after_parseLoop _ sort env calls call c hc hsound
    have hsettled := @sound_handleResult _ env
      { c with mqttParser := (parseLoop sort c.mqttParser .indeterminate none
        (call :: calls)).mqttParser } hnext
      (parseLoop sort c.mqttParser .indeterminate none (call :: calls)).ret
      (parseLoop sort c.mqttParser .indeterminate none (call :: calls)).errc
    rw [handleRead, hafter]
    split
    · rename_i hreading
      exact handleRead_eq _ _ hreading hsettled
    · rename_i hstopped
      rw [after_stopped hstopped]
      exact ⟨rfl, hsettled⟩
termination_by calls.length
decreasing_by
  rw [parseLoop, if_pos (by rfl)]
  exact Nat.lt_succ_of_le (length_parseLoop ..)

/-- A read is its bytes, also for a connection that has stopped reading. -/
theorem reads_step (c : Reader β) (calls : List Call) (hsound : c.mqttParser.Sound) :
    (reads sort env c calls).2 = (handleByte sort env).after c calls ∧
      (reads sort env c calls).2.mqttParser.Sound := by
  by_cases hc : c.status = .reading
  · have hread : (reads sort env c calls).2 = c.handleRead sort env calls := if_pos hc
    rw [hread]
    exact handleRead_eq c calls hc hsound
  · have hsame : (reads sort env c calls).2 = c := if_neg hc
    rw [hsame, after_stopped hc]
    exact ⟨rfl, hsound⟩

end Reader

/-- **What a connection does with the bytes it receives does not depend on where
the reads end**: it is what it does with one byte after the other. -/
theorem reads_eq_bytes (sort : TopicFilters → TopicFilters) (env : Surroundings β) (shared : β)
    (chunks : List (List Call)) :
    (Reader.reads sort env).after { shared := shared } chunks =
      (Reader.handleByte sort env).after { shared := shared } chunks.flatten := by
  have hrun : ∀ (chunks : List (List Call)) (c : Reader β), c.mqttParser.Sound →
      (Reader.reads sort env).after c chunks =
        (Reader.handleByte sort env).after c chunks.flatten := by
    intro chunks
    induction chunks with
    | nil => exact fun c _ => rfl
    | cons chunk chunks ih =>
      intro c hsound
      obtain ⟨hstep, hnext⟩ := @Reader.reads_step _ sort env c chunk hsound
      rw [Machine.after_cons, ih _ hnext, hstep, List.flatten_cons, Machine.after_append]
  exact hrun chunks _ MQTTParser.sound_new

end Acatl.Mqtt

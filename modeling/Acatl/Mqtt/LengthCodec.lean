/-
Acatl.Mqtt.LengthCodec — `RunlengthEncoder` and `RunlengthDecoder` against each
other, byte by byte.

The decoder answers each byte on its own: that it needs more, that it is ready,
or that the length is malformed. What it has read so far is in its multiplier
and its value (`after_front`), and none of that leaves the range of 32 bits
before it is ready or refuses.

  `remainingLength_codec`   what the decoder answers to the bytes of the encoder
                            and to any other bytes.
-/
import Acatl.Lib.Machine
import Acatl.Mqtt.RemainingLength
import Mathlib.Algebra.BigOperators.Group.Finset.Basic
import Mathlib.Algebra.BigOperators.Ring.Finset
import Mathlib.Data.List.GetD

namespace Acatl.Mqtt

open Acatl.Lib

/-! ## §1 The answers of the decoder -/

namespace RunlengthDecoder

/-- The calls of `decode` with this error code: the two members of the tuple
and the error code, and the decoder. -/
def decoding (ec : ErrorCode) : Machine RunlengthDecoder UInt8 (Int × UInt32 × ErrorCode) :=
  fun d byte =>
    let r := d.decode byte ec
    ((r.1, r.2.1, r.2.2.1), r.2.2.2)

/-- The answers to bytes after a reset. -/
def answers (ec : ErrorCode) (bytes : Bytes) : List (Int × UInt32 × ErrorCode) :=
  (decoding ec).outputs reset bytes

/-- The answer "not ready, continue decoding". -/
def Continues (ec : ErrorCode) (answer : Int × UInt32 × ErrorCode) : Prop :=
  answer.1 = 0 ∧ answer.2.2 = ec

/-- The answer "error, stop processing". -/
def Refused (answer : Int × UInt32 × ErrorCode) : Prop :=
  answer = (-1, 0, some .malformedRemainingLength)

/-- The decoder is ready at byte `k` with this value, and not before. -/
structure ReadyAt (ec : ErrorCode) (bytes : Bytes) (k : Nat) (value : UInt32) : Prop where
  before : ∀ answer ∈ (answers ec bytes).take k, Continues ec answer
  ready : (answers ec bytes)[k]? = some (1, value, ec)

/-- No addition and no multiplication of the call leaves the range. -/
structure InRange (d : RunlengthDecoder) (byte : UInt8) : Prop where
  product : (byte &&& 127).toNat * d.multiplier.toNat < 2 ^ 32
  sum : d.value.toNat + (byte &&& 127).toNat * d.multiplier.toNat < 2 ^ 32
  multiplier : d.multiplier.toNat * 128 < 2 ^ 32

variable {ec : ErrorCode} {front : Bytes}

/-- Bytes of which none is the last one leave their groups in the value. -/
theorem after_front (hlength : front.length ≤ 4) :
    (decoding ec).after reset front =
      ⟨UInt32.ofNat (128 ^ front.length), UInt32.ofNat (Base128.value front)⟩ := by
  induction front using List.reverseRecOn with
  | nil => rfl
  | append_singleton front byte ih =>
    rw [List.length_append, List.length_singleton] at hlength
    rw [Machine.after_append, ih (by omega), Machine.after_cons, Machine.after_nil, decoding,
      decode_group (by omega), Base128.value_append, UInt32.ofNat_add]
    simp [Base128.value]

theorem continues_front (hlength : front.length ≤ 4) (hfront : ∀ b ∈ front, 128 ≤ b.toNat) :
    ∀ answer ∈ answers ec front, Continues ec answer := by
  induction front using List.reverseRecOn with
  | nil => simp [answers]
  | append_singleton front byte ih =>
    rw [List.length_append, List.length_singleton] at hlength
    have hbyte : 128 ≤ byte.toNat := hfront byte (by simp)
    intro answer hanswer
    rw [answers, Machine.outputs_append, List.mem_append] at hanswer
    cases hanswer with
    | inl hanswer => exact ih (by omega) (fun b hb => hfront b (by simp [hb])) answer hanswer
    | inr hanswer =>
      rw [after_front (by omega), Machine.outputs_cons, Machine.outputs_nil, List.mem_singleton,
        decoding, decode_group (by omega), if_pos hbyte] at hanswer
      rw [hanswer]
      exact ⟨rfl, rfl⟩

theorem answers_append (ec : ErrorCode) (front back : Bytes) :
    answers ec (front ++ back) =
      answers ec front ++ (decoding ec).outputs ((decoding ec).after reset front) back :=
  (decoding ec).outputs_append reset front back

theorem length_answers (bytes : Bytes) : (answers ec bytes).length = bytes.length :=
  (decoding ec).length_outputs reset bytes

/-- **The first byte without bit 7 ends the length**, if it is among the first
four. -/
theorem readyAt_front (ec : ErrorCode) (hlength : front.length < 4)
    (hfront : ∀ b ∈ front, 128 ≤ b.toNat) {byte : UInt8} (hbyte : byte.toNat < 128) (rest : Bytes) :
    ReadyAt ec (front ++ byte :: rest) front.length
      (UInt32.ofNat (Base128.value (front ++ [byte]))) := by
  have hanswers := answers_append ec front (byte :: rest)
  rw [after_front (by omega)] at hanswers
  refine ⟨?_, ?_⟩
  · rw [hanswers, List.take_left' (length_answers front)]
    exact continues_front (by omega) hfront
  · rw [hanswers, List.getElem?_append_right (by rw [length_answers]), length_answers,
      Nat.sub_self, Machine.outputs_cons, decoding, decode_group hlength,
      if_neg (Nat.not_le.mpr hbyte), Base128.value_append, UInt32.ofNat_add]
    simp [Base128.value]

/-- Up to four bytes there is room for each group. -/
theorem inRange_front (hlength : front.length < 4) (byte : UInt8) :
    ((decoding ec).after reset front).InRange byte := by
  have hvalue := Base128.value_lt front
  have hgroup : byte.toNat % 128 < 128 := Nat.mod_lt _ (by decide)
  have hpow : 128 ^ front.length ≤ 128 ^ 3 := Nat.pow_le_pow_right (by decide) (by omega)
  have hmultiplier : (UInt32.ofNat (128 ^ front.length)).toNat = 128 ^ front.length := by
    rw [UInt32.toNat_ofNat']
    omega
  have hsofar : (UInt32.ofNat (Base128.value front)).toNat = Base128.value front := by
    rw [UInt32.toNat_ofNat']
    omega
  have hproduct : byte.toNat % 128 * 128 ^ front.length ≤ 127 * 128 ^ 3 :=
    Nat.mul_le_mul (by omega) hpow
  rw [after_front (by omega)]
  refine ⟨?_, ?_, ?_⟩
  · rw [hmultiplier, toNat_and_127]
    omega
  · rw [hmultiplier, hsofar, toNat_and_127]
    omega
  · rw [hmultiplier]
    omega

/-- **Behind four bytes with bit 7 every byte is refused.** -/
theorem refused_behind (ec : ErrorCode) (hlength : front.length = 4) (rest : Bytes) :
    ∀ answer ∈ (decoding ec).outputs ((decoding ec).after reset front) rest, Refused answer := by
  have hinv : ((decoding ec).after reset front).multiplier = UInt32.ofNat (128 ^ 4) := by
    rw [after_front (by omega), hlength]
  refine Machine.forall_outputs (fun d => d.multiplier = UInt32.ofNat (128 ^ 4)) ?_ hinv rest
  intro d byte hd
  have hmultiplier : d.multiplier > 128 * 128 * 128 := by
    rw [hd]
    decide
  simp only [decoding, decode, if_pos hmultiplier, Refused]
  exact ⟨trivial, hd⟩

end RunlengthDecoder

/-! ## §2 The value -/

theorem value_eq_sum (bytes : Bytes) : Base128.value bytes =
    ∑ i ∈ Finset.range bytes.length, (bytes.getD i 0).toNat % 128 * 128 ^ i := by
  induction bytes with
  | nil => rfl
  | cons b bytes ih =>
    rw [Base128.value, ih, List.length_cons, Finset.sum_range_succ', Finset.mul_sum, Nat.add_comm]
    congr 1
    · refine Finset.sum_congr rfl fun i _ => ?_
      rw [List.getD_cons_succ, Nat.pow_succ]
      ring
    · simp

/-- The groups of the first bytes, by their positions. -/
theorem value_take {bytes : Bytes} {k : Nat} (hk : k < bytes.length) :
    Base128.value (bytes.take (k + 1)) =
      ∑ i ∈ Finset.range (k + 1), (bytes.getD i 0).toNat % 128 * 128 ^ i := by
  rw [value_eq_sum, List.length_take, Nat.min_eq_left hk]
  refine Finset.sum_congr rfl fun i hi => ?_
  have hi : i < k + 1 := Finset.mem_range.mp hi
  rw [List.getD_eq_getElem?_getD, List.getElem?_take_of_lt hi, ← List.getD_eq_getElem?_getD]

/-! ## §3 The codec -/

namespace RunlengthDecoder

variable {ec : ErrorCode}

/-- The bytes of a length that fits. -/
theorem readyAt_encode {v : UInt32} (hv : v.toNat < 2 ^ 28) :
    1 ≤ (Base128.encode 5 v.toNat).length ∧ (Base128.encode 5 v.toNat).length ≤ 4 ∧
      ReadyAt ec (Base128.encode 5 v.toNat) ((Base128.encode 5 v.toNat).length - 1) v := by
  have hfits : v.toNat < 128 ^ 4 := hv
  have hlength := Base128.length_encode_le 4 v.toNat
  have hvalue := Base128.value_encode hfits
  obtain ⟨front, last, hshape, hfront, hlast⟩ := Base128.encode_shape hfits
  rw [Base128.encode_eq hfits (by decide) (by decide)]
  rw [hshape] at hlength hvalue ⊢
  rw [List.length_append, List.length_singleton] at hlength ⊢
  have hready := readyAt_front ec (by omega) hfront hlast []
  rw [hvalue, UInt32.ofNat_toNat] at hready
  exact ⟨by omega, hlength, hready⟩

/-- The bytes of a length that does not fit. -/
theorem refused_encode {v : UInt32} (hv : 2 ^ 28 ≤ v.toNat) :
    ∃ answer, (answers ec (Base128.encode 5 v.toNat)).getLast? = some answer ∧ Refused answer ∧
      ∀ earlier ∈ (answers ec (Base128.encode 5 v.toNat)).dropLast, Continues ec earlier := by
  obtain ⟨front, back, hencode, hlength, hfront, hback⟩ :=
    Base128.encode_overlong (k := 4) (j := 5) hv (by decide)
  have hlong := Base128.length_encode_le 5 v.toNat
  rw [hencode, List.length_append, hlength] at hlong
  obtain ⟨byte, rfl⟩ : ∃ byte, back = [byte] := by
    cases back with
    | nil => exact absurd rfl hback
    | cons byte back =>
      have hnil : back = [] := by
        rw [List.length_cons] at hlong
        exact List.length_eq_zero_iff.mp (by omega)
      exact ⟨byte, by rw [hnil]⟩
  rw [hencode, answers_append, Machine.outputs_cons, Machine.outputs_nil]
  refine ⟨_, List.getLast?_concat, refused_behind ec hlength [byte] _ (by simp), ?_⟩
  rw [List.dropLast_concat]
  exact continues_front (by omega) hfront

/-- The four statements about the codec. -/
structure CodecAgrees (ec : ErrorCode) : Prop where
  /-- a value below 2^28 is written in one to four bytes and comes back with the
  last of them -/
  roundTrip : ∀ v : UInt32, v.toNat < 2 ^ 28 → ∃ bytes,
    Writer.Emits (RunlengthEncoder.encode v) bytes ∧ 1 ≤ bytes.length ∧ bytes.length ≤ 4 ∧
      ReadyAt ec bytes (bytes.length - 1) v
  /-- any bytes are read up to the first one without bit 7, in range -/
  ready : ∀ (bytes : Bytes) (k : Nat) (b : UInt8), k < 4 → bytes[k]? = some b → b.toNat < 128 →
    (∀ c ∈ bytes.take k, 128 ≤ c.toNat) →
      (∑ i ∈ Finset.range (k + 1), (bytes.getD i 0).toNat % 128 * 128 ^ i) < 2 ^ 32 ∧
      ReadyAt ec bytes k (UInt32.ofNat
        (∑ i ∈ Finset.range (k + 1), (bytes.getD i 0).toNat % 128 * 128 ^ i)) ∧
      ∀ i ≤ k, ∀ c, bytes[i]? = some c → ((decoding ec).after reset (bytes.take i)).InRange c
  /-- behind four bytes with bit 7 all others are refused -/
  malformed : ∀ bytes : Bytes, 4 ≤ bytes.length → (∀ c ∈ bytes.take 4, 128 ≤ c.toNat) →
    ∀ i answer, 4 ≤ i → (answers ec bytes)[i]? = some answer → Refused answer
  /-- a value from 2^28 on is refused with the last of its bytes -/
  overlong : ∀ v : UInt32, 2 ^ 28 ≤ v.toNat → ∃ bytes,
    Writer.Emits (RunlengthEncoder.encode v) bytes ∧
      ∃ answer, (answers ec bytes).getLast? = some answer ∧ Refused answer ∧
        ∀ earlier ∈ (answers ec bytes).dropLast, Continues ec earlier

/-- **The remaining length is read as it was written**, and nothing else is. -/
theorem remainingLength_codec (ec : ErrorCode) : CodecAgrees ec where
  roundTrip v hv := ⟨_, RunlengthEncoder.emits_encode v, readyAt_encode hv⟩
  ready bytes k b hk hget hb hfront := by
    obtain ⟨hlt, hbyte⟩ := List.getElem?_eq_some_iff.mp hget
    have hlength : (bytes.take k).length = k := by
      rw [List.length_take, Nat.min_eq_left (by omega)]
    have hcut : bytes = bytes.take k ++ b :: bytes.drop (k + 1) := by
      rw [← hbyte, ← List.drop_eq_getElem_cons hlt, List.take_append_drop]
    have htake : bytes.take (k + 1) = bytes.take k ++ [b] := by
      rw [List.take_add_one, hget, Option.toList_some]
    have hbound := Base128.value_lt (bytes.take (k + 1))
    have hpow : 128 ^ (bytes.take (k + 1)).length ≤ 128 ^ 4 :=
      Nat.pow_le_pow_right (by decide) (by rw [List.length_take]; omega)
    rw [← value_take hlt]
    refine ⟨by omega, ?_, fun i hi c _ => ?_⟩
    · have hready := readyAt_front ec (by omega) hfront hb (bytes.drop (k + 1))
      rwa [← hcut, hlength, ← htake] at hready
    · exact inRange_front (by rw [List.length_take]; omega) c
  malformed bytes hlong hfront i answer hi hget := by
    have hlength : (bytes.take 4).length = 4 := by
      rw [List.length_take, Nat.min_eq_left hlong]
    rw [← List.take_append_drop 4 bytes, answers_append,
      List.getElem?_append_right (by rw [length_answers]; omega)] at hget
    exact refused_behind ec hlength _ answer (List.mem_of_getElem? hget)
  overlong v hv := ⟨_, RunlengthEncoder.emits_encode v, refused_encode hv⟩

end RunlengthDecoder

end Acatl.Mqtt

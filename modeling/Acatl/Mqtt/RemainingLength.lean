/-
Acatl.Mqtt.RemainingLength — the numbers of a frame: the remaining length as
`RunlengthDecoder` reads it, and the two bytes before a string or in a packet
identifier.

  `RunlengthDecoder.read_new`   the decoder is `Base128.decode` for four bytes.
  `join_msb_lsb`                two bytes put together are the number that `msb`
                                and `lsb` took apart, and the other way round.
-/
import Acatl.Mqtt.FieldParsers
import Acatl.Mqtt.Serializer
import Mathlib.Data.Nat.Bitwise
import Mathlib.Tactic.Ring

namespace Acatl.Mqtt

open Acatl.Lib

/-! ## §1 Seven bits of a byte -/

theorem toNat_and_127 (b : UInt8) : (b &&& 127).toNat = b.toNat % 128 := by
  rw [UInt8.toNat_and]
  exact Nat.and_two_pow_sub_one_eq_mod b.toNat 7

theorem and_128_ne_zero (b : UInt8) : b &&& 128 ≠ 0 ↔ 128 ≤ b.toNat := by
  have hbit : (b &&& 128).toNat = b.toNat / 128 % 2 * 128 := by
    rw [UInt8.toNat_and]
    show b.toNat &&& 2 ^ 7 = _
    rw [Nat.and_two_pow, Nat.toNat_testBit]
    rfl
  have hbyte : b.toNat < 256 := b.toNat_lt
  rw [ne_eq, ← UInt8.toNat_inj, hbit]
  show ¬ b.toNat / 128 % 2 * 128 = 0 ↔ _
  omega

/-! ## §2 The remaining length -/

namespace RunlengthDecoder

/-- The length that the bytes begin with, and the bytes behind it. -/
def read : RunlengthDecoder → Bytes → Option (UInt32 × Bytes)
  | _, [] => none
  | d, byte :: bytes =>
    let r := d.decode byte none
    if r.1 = 1 then some (r.2.1, bytes)
    else if r.1 = 0 then read r.2.2.2 bytes
    else none

/-- One of the first four bytes. -/
theorem decode_group {j : Nat} (hj : j < 4) (value : UInt32) (byte : UInt8) (ec : ErrorCode) :
    decode ⟨UInt32.ofNat (128 ^ j), value⟩ byte ec =
      (if 128 ≤ byte.toNat then 0 else 1,
        value + UInt32.ofNat (byte.toNat % 128 * 128 ^ j), ec,
        ⟨UInt32.ofNat (128 ^ (j + 1)), value + UInt32.ofNat (byte.toNat % 128 * 128 ^ j)⟩) := by
  have hmultiplier : ¬ UInt32.ofNat (128 ^ j) > 128 * 128 * 128 := by
    obtain rfl | rfl | rfl | rfl : j = 0 ∨ j = 1 ∨ j = 2 ∨ j = 3 := by omega
    all_goals decide
  have hgroup : (byte &&& 127).toUInt32 = UInt32.ofNat (byte.toNat % 128) := by
    rw [← UInt32.toNat_inj, UInt8.toNat_toUInt32, toNat_and_127, UInt32.toNat_ofNat']
    omega
  have hvalue : value + (byte &&& 127).toUInt32 * UInt32.ofNat (128 ^ j) =
      value + UInt32.ofNat (byte.toNat % 128 * 128 ^ j) := by
    rw [hgroup, UInt32.ofNat_mul]
  have hnext : UInt32.ofNat (128 ^ j) * 128 = UInt32.ofNat (128 ^ (j + 1)) := by
    rw [Nat.pow_succ, UInt32.ofNat_mul]
    rfl
  by_cases hmore : 128 ≤ byte.toNat
  · simp only [decode, if_neg hmultiplier, if_pos ((and_128_ne_zero byte).mpr hmore), hvalue,
      hnext, if_pos hmore]
  · simp only [decode, if_neg hmultiplier, if_neg (mt (and_128_ne_zero byte).mp hmore), hvalue,
      hnext, if_neg hmore]

/-- After `j` bytes of four, with `k` of them left. -/
theorem read_eq {k j : Nat} (hkj : k + j = 4) (value : UInt32) (bytes : Bytes) :
    read ⟨UInt32.ofNat (128 ^ j), value⟩ bytes =
      (Base128.decode k bytes).map fun r => (value + UInt32.ofNat (r.1 * 128 ^ j), r.2) := by
  induction k generalizing j value bytes with
  | zero =>
    obtain rfl : j = 4 := by omega
    cases bytes with
    | nil => rfl
    | cons byte bytes => simp [read, decode, Base128.decode]
  | succ k ih =>
    cases bytes with
    | nil => rfl
    | cons byte bytes =>
      have hdecode := decode_group (j := j) (by omega) value byte none
      by_cases hmore : 128 ≤ byte.toNat
      · rw [if_pos hmore] at hdecode
        rw [read, hdecode]
        show read ⟨UInt32.ofNat (128 ^ (j + 1)), _⟩ bytes = _
        rw [ih (by omega), Base128.decode_more hmore, Option.map_map]
        refine Option.map_congr fun r _ => Prod.ext ?_ rfl
        show _ + _ + _ = _ + _
        rw [UInt32.add_assoc, ← UInt32.ofNat_add]
        congr 2
        rw [Nat.add_mul, Nat.pow_succ]
        ring
      · rw [if_neg hmore] at hdecode
        have hsmall : byte.toNat < 128 := Nat.not_le.mp hmore
        rw [read, hdecode]
        rw [if_pos rfl, Base128.decode_last hsmall, Nat.mod_eq_of_lt hsmall]
        rfl

/-- **A new decoder reads a number in base 128 of four bytes at most.** -/
theorem read_new (bytes : Bytes) :
    read {} bytes = (Base128.decode 4 bytes).map fun r => (UInt32.ofNat r.1, r.2) := by
  have h := read_eq (k := 4) (j := 0) rfl 0 bytes
  rw [Nat.pow_zero] at h
  refine h.trans (Option.map_congr fun r _ => ?_)
  rw [Nat.mul_one, UInt32.zero_add]

end RunlengthDecoder

/-! ## §3 Two bytes -/

theorem toNat_msb (value : UInt16) : (msb value).toNat = value.toNat / 256 := by
  have hvalue : value.toNat < 65536 := value.toNat_lt
  unfold msb
  rw [UInt16.toNat_toUInt8, UInt16.toNat_shiftRight, UInt16.toNat_and]
  show (value.toNat &&& 0xFF00) >>> 8 % 256 = _
  rw [Nat.shiftRight_and_distrib, Nat.shiftRight_eq_div_pow]
  show (value.toNat / 256 &&& 2 ^ 8 - 1) % 256 = _
  rw [Nat.and_two_pow_sub_one_eq_mod]
  omega

theorem toNat_lsb (value : UInt16) : (lsb value).toNat = value.toNat % 256 := by
  unfold lsb
  rw [UInt16.toNat_toUInt8, UInt16.toNat_and]
  show (value.toNat &&& 2 ^ 8 - 1) % 256 = _
  rw [Nat.and_two_pow_sub_one_eq_mod, Nat.mod_mod]

/-- The length before a string, as `StringParser` puts it together. -/
theorem shift_or (high low : UInt8) :
    high.toNat <<< 8 ||| low.toNat = high.toNat * 256 + low.toNat := by
  rw [← Nat.shiftLeft_add_eq_or_of_lt low.toNat_lt, Nat.shiftLeft_eq]

/-- The length bytes that `StringEncoder` writes hold 16 bits of the length. -/
theorem length_of_msb_lsb (n : Nat) :
    (msb (UInt16.ofNat n)).toNat <<< 8 ||| (lsb (UInt16.ofNat n)).toNat = n % 65536 := by
  rw [shift_or, toNat_msb, toNat_lsb, UInt16.toNat_ofNat', Nat.mul_comm, Nat.div_add_mod]

/-- A packet identifier, as `PacketIdentifierParser` puts it together. -/
def join (high low : UInt8) : UInt16 := high.toUInt16 <<< 8 ||| low.toUInt16

theorem toNat_join (high low : UInt8) : (join high low).toNat = high.toNat * 256 + low.toNat := by
  have hhigh : high.toNat < 256 := high.toNat_lt
  have hshift : (high.toUInt16 <<< 8).toNat = high.toNat <<< 8 := by
    rw [UInt16.toNat_shiftLeft, UInt8.toNat_toUInt16]
    show high.toNat <<< 8 % 65536 = _
    rw [Nat.shiftLeft_eq]
    omega
  unfold join
  rw [UInt16.toNat_or, hshift, UInt8.toNat_toUInt16, shift_or]

theorem join_msb_lsb (value : UInt16) : join (msb value) (lsb value) = value := by
  rw [← UInt16.toNat_inj, toNat_join, toNat_msb, toNat_lsb]
  omega

theorem msb_join (high low : UInt8) : msb (join high low) = high := by
  have hlow : low.toNat < 256 := low.toNat_lt
  rw [← UInt8.toNat_inj, toNat_msb, toNat_join]
  omega

theorem lsb_join (high low : UInt8) : lsb (join high low) = low := by
  have hlow : low.toNat < 256 := low.toNat_lt
  rw [← UInt8.toNat_inj, toNat_lsb, toNat_join]
  omega

end Acatl.Mqtt

/-
Acatl.Lib.Base128 — numbers in base 128, the least group first, with bit 7 of
every byte but the last one set.

`encode k` and `decode k` use `k` bytes at most.

  `decode_encode`        a number below 128 ^ k comes back.
  `decode_encode_large`  a larger one is refused by a decoder for `k` bytes.
  `encode_of_decode`     a number has one encoding without a final zero group.
  `encode_shape`         bit 7 is set in all bytes of an encoding but the last.

Nothing here is about packets.
-/
import Mathlib.Algebra.Group.Nat.Defs
import Mathlib.Data.List.Basic

namespace Acatl.Lib.Base128

/-- The groups of a number. -/
def encode : Nat → Nat → List UInt8
  | 0, _ => []
  | k + 1, n =>
    if n < 128 then [UInt8.ofNat n] else UInt8.ofNat (n % 128 + 128) :: encode k (n / 128)

/-- The number that the bytes begin with, and the bytes behind it. -/
def decode : Nat → List UInt8 → Option (Nat × List UInt8)
  | 0, _ => none
  | _ + 1, [] => none
  | k + 1, b :: bytes =>
    if b.toNat < 128 then some (b.toNat, bytes)
    else (decode k bytes).map fun r => (b.toNat % 128 + 128 * r.1, r.2)

/-- Does not end with a group of zeros that could be left out. -/
def Minimal (bytes : List UInt8) : Prop := bytes.length = 1 ∨ bytes.getLast? ≠ some 0

instance (bytes : List UInt8) : Decidable (Minimal bytes) := inferInstanceAs (Decidable (_ ∨ _))

/-! ## §1 One group -/

theorem encode_small {k n : Nat} (h : n < 128) : encode (k + 1) n = [UInt8.ofNat n] := by
  rw [encode, if_pos h]

theorem encode_large {k n : Nat} (h : 128 ≤ n) :
    encode (k + 1) n = UInt8.ofNat (n % 128 + 128) :: encode k (n / 128) := by
  rw [encode, if_neg (Nat.not_lt.mpr h)]

theorem toNat_last {n : Nat} (h : n < 128) : (UInt8.ofNat n).toNat = n := by
  rw [UInt8.toNat_ofNat']
  omega

theorem toNat_group (n : Nat) : (UInt8.ofNat (n % 128 + 128)).toNat = n % 128 + 128 := by
  rw [UInt8.toNat_ofNat']
  omega

theorem decode_last {k : Nat} {b : UInt8} (h : b.toNat < 128) (bytes : List UInt8) :
    decode (k + 1) (b :: bytes) = some (b.toNat, bytes) := by
  rw [decode, if_pos h]

theorem decode_more {k : Nat} {b : UInt8} (h : 128 ≤ b.toNat) (bytes : List UInt8) :
    decode (k + 1) (b :: bytes) =
      (decode k bytes).map fun r => (b.toNat % 128 + 128 * r.1, r.2) := by
  rw [decode, if_neg (Nat.not_lt.mpr h)]

/-! ## §2 Decoding what was encoded -/

theorem div_lt_pow {k n : Nat} (h : n < 128 ^ (k + 1)) : n / 128 < 128 ^ k := by
  rw [Nat.div_lt_iff_lt_mul (by decide)]
  rwa [Nat.pow_succ] at h

theorem pow_le_div {k n : Nat} (h : 128 ^ (k + 1) ≤ n) : 128 ^ k ≤ n / 128 := by
  rw [Nat.le_div_iff_mul_le (by decide)]
  rwa [Nat.pow_succ] at h

/-- **A number that fits is read back.** -/
theorem decode_encode {k n : Nat} (h : n < 128 ^ (k + 1)) (rest : List UInt8) :
    decode (k + 1) (encode (k + 1) n ++ rest) = some (n, rest) := by
  induction k generalizing n with
  | zero =>
    have hn : n < 128 := by simpa using h
    rw [encode_small hn, List.singleton_append, decode_last (by rwa [toNat_last hn]),
      toNat_last hn]
  | succ k ih =>
    by_cases hn : n < 128
    · rw [encode_small hn, List.singleton_append, decode_last (by rwa [toNat_last hn]),
        toNat_last hn]
    · have hgroup := toNat_group n
      rw [encode_large (Nat.not_lt.mp hn), List.cons_append, decode_more (by omega),
        ih (div_lt_pow h), hgroup]
      simp only [Option.map_some, Option.some.injEq, Prod.mk.injEq, and_true]
      omega

/-- A number that does not fit into the bytes of the decoder. -/
theorem decode_encode_large {k j n : Nat} (h : 128 ^ k ≤ n) (hk : k < j) (rest : List UInt8) :
    decode k (encode j n ++ rest) = none := by
  induction k generalizing j n with
  | zero => rfl
  | succ k ih =>
    obtain ⟨j, rfl⟩ : ∃ i, j = i + 1 := ⟨j - 1, by omega⟩
    have hn : 128 ≤ n := by
      have hpow : 128 ^ 1 ≤ 128 ^ (k + 1) := Nat.pow_le_pow_right (by decide) (by omega)
      omega
    have hgroup := toNat_group n
    rw [encode_large hn, List.cons_append, decode_more (by omega), ih (pow_le_div h) (by omega)]
    rfl

/-- More bytes than needed do not change the encoding. -/
theorem encode_eq {k j n : Nat} (hk : n < 128 ^ k) (hkj : k ≤ j) (hpos : 0 < k) :
    encode j n = encode k n := by
  induction k generalizing j n with
  | zero => omega
  | succ k ih =>
    obtain ⟨j, rfl⟩ : ∃ i, j = i + 1 := ⟨j - 1, by omega⟩
    by_cases hn : n < 128
    · rw [encode_small hn, encode_small hn]
    · have hpow := div_lt_pow hk
      have hk : 0 < k := by
        by_contra hzero
        obtain rfl : k = 0 := by omega
        rw [Nat.pow_zero] at hpow
        omega
      rw [encode_large (Nat.not_lt.mp hn), encode_large (Nat.not_lt.mp hn),
        ih hpow (by omega) hk]

/-! ## §3 Lengths -/

theorem encode_ne_nil (k n : Nat) : encode (k + 1) n ≠ [] := by
  rw [encode]
  split <;> simp

/-- One byte is enough for the numbers below 128 only. -/
theorem length_encode_eq_one {k n : Nat} : (encode (k + 2) n).length = 1 ↔ n < 128 := by
  constructor
  · intro h
    by_contra hn
    rw [encode_large (Nat.not_lt.mp hn), List.length_cons] at h
    have hrest := List.length_pos_iff.mpr (encode_ne_nil k (n / 128))
    omega
  · intro hn
    rw [encode_small hn]
    rfl

/-- How many bytes the decoder takes, and what the first of them says. -/
theorem decode_length {k n : Nat} {b : UInt8} {bytes rest : List UInt8}
    (h : decode k (b :: bytes) = some (n, rest)) :
    ∃ used, 1 ≤ used ∧ used ≤ k ∧ (b :: bytes).length = used + rest.length ∧
      n % 128 = b.toNat % 128 := by
  induction k generalizing n b bytes with
  | zero => cases h
  | succ k ih =>
    by_cases hb : b.toNat < 128
    · rw [decode_last hb] at h
      obtain ⟨rfl, rfl⟩ := Prod.mk.inj (Option.some.inj h)
      exact ⟨1, Nat.le_refl 1, by omega, by simp [Nat.add_comm], rfl⟩
    · rw [decode_more (Nat.not_lt.mp hb)] at h
      obtain ⟨⟨m, rest'⟩, hm, heq⟩ := Option.map_eq_some_iff.mp h
      obtain ⟨rfl, rfl⟩ := Prod.mk.inj heq
      cases bytes with
      | nil => cases k <;> cases hm
      | cons c bytes =>
        obtain ⟨used, hone, hle, hlength, -⟩ := ih hm
        refine ⟨used + 1, by omega, by omega, ?_, by dsimp only; omega⟩
        rw [List.length_cons, hlength]
        omega

theorem decode_lt {k n : Nat} {bytes rest : List UInt8} (h : decode k bytes = some (n, rest)) :
    n < 128 ^ k := by
  induction k generalizing n bytes with
  | zero => cases h
  | succ k ih =>
    cases bytes with
    | nil => cases h
    | cons b bytes =>
      by_cases hb : b.toNat < 128
      · rw [decode_last hb] at h
        obtain ⟨rfl, -⟩ := Prod.mk.inj (Option.some.inj h)
        have hpow : 0 < 128 ^ k := Nat.pow_pos (by decide)
        rw [Nat.pow_succ]
        omega
      · rw [decode_more (Nat.not_lt.mp hb)] at h
        obtain ⟨⟨m, rest'⟩, hm, heq⟩ := Option.map_eq_some_iff.mp h
        obtain ⟨rfl, rfl⟩ := Prod.mk.inj heq
        have hlt := ih hm
        rw [Nat.pow_succ]
        dsimp only
        omega

/-- A length that is written as it is, in one byte, is the length of what
follows only if it has one group. -/
theorem decode_raw {k : Nat} (hk : k < 128) (bytes rest : List UInt8) :
    decode (k + 1) (UInt8.ofNat bytes.length :: bytes) = some (rest.length, rest) ↔
      bytes.length < 128 ∧ rest = bytes := by
  have hbyte : (UInt8.ofNat bytes.length).toNat = bytes.length % 256 := UInt8.toNat_ofNat'
  constructor
  · intro h
    by_cases hlast : (UInt8.ofNat bytes.length).toNat < 128
    · rw [decode_last hlast] at h
      obtain ⟨hlength, rfl⟩ := Prod.mk.inj (Option.some.inj h)
      exact ⟨by omega, rfl⟩
    · -- a second group takes a byte away, and the last seven bits say otherwise
      obtain ⟨used, -, hle, hlength, hmod⟩ := decode_length h
      rw [decode_more (Nat.not_lt.mp hlast)] at h
      obtain ⟨⟨n, rest'⟩, hn, heq⟩ := Option.map_eq_some_iff.mp h
      obtain ⟨-, rfl⟩ := Prod.mk.inj heq
      cases bytes with
      | nil => cases k <;> cases hn
      | cons c bytes =>
        obtain ⟨used', hone, -, hlength', -⟩ := decode_length hn
        rw [List.length_cons] at hlength
        dsimp only at hlength hmod
        omega
  · rintro ⟨hsmall, rfl⟩
    have hvalue : (UInt8.ofNat rest.length).toNat = rest.length := toNat_last hsmall
    rw [decode_last (by omega), hvalue]

/-! ## §4 The encoding of a number -/

theorem Minimal.tail {b c : UInt8} {bytes : List UInt8} (h : Minimal (b :: c :: bytes)) :
    Minimal (c :: bytes) := by
  rcases h with h | h
  · simp at h
  · right
    rwa [List.getLast?_cons_cons] at h

/-- A minimal encoding of two bytes or more is one of a large number. -/
theorem Minimal.large {k n : Nat} {b c : UInt8} {bytes : List UInt8}
    (hmin : Minimal (b :: c :: bytes)) (h : decode k (c :: bytes) = some (n, [])) : 0 < n := by
  induction k generalizing n b c bytes with
  | zero => cases h
  | succ k ih =>
    by_cases hc : c.toNat < 128
    · rw [decode_last hc] at h
      obtain ⟨rfl, rfl⟩ := Prod.mk.inj (Option.some.inj h)
      rcases hmin with hmin | hmin
      · simp at hmin
      · have hne : c ≠ 0 := by simpa using hmin
        have hzero : c.toNat ≠ 0 := fun hzero => hne (UInt8.toNat_inj.mp hzero)
        omega
    · rw [decode_more (Nat.not_lt.mp hc)] at h
      obtain ⟨⟨m, rest⟩, hm, heq⟩ := Option.map_eq_some_iff.mp h
      obtain ⟨rfl, rfl⟩ := Prod.mk.inj heq
      cases bytes with
      | nil => cases k <;> cases hm
      | cons d bytes =>
        have hpos := ih hmin.tail hm
        dsimp only
        omega

/-- **A number has one minimal encoding.** -/
theorem encode_of_decode {k n : Nat} {bytes : List UInt8} (hmin : Minimal bytes)
    (h : decode k bytes = some (n, [])) : bytes = encode k n := by
  induction k generalizing n bytes with
  | zero => cases h
  | succ k ih =>
    cases bytes with
    | nil => cases h
    | cons b bytes =>
      by_cases hb : b.toNat < 128
      · rw [decode_last hb] at h
        obtain ⟨rfl, rfl⟩ := Prod.mk.inj (Option.some.inj h)
        rw [encode_small hb, UInt8.ofNat_toNat]
      · rw [decode_more (Nat.not_lt.mp hb)] at h
        obtain ⟨⟨m, rest⟩, hm, heq⟩ := Option.map_eq_some_iff.mp h
        obtain ⟨rfl, rfl⟩ := Prod.mk.inj heq
        cases bytes with
        | nil => cases k <;> cases hm
        | cons c bytes =>
          have hpos := hmin.large hm
          have hbyte : b.toNat < 256 := b.toNat_lt
          have hgroup : b = UInt8.ofNat ((b.toNat % 128 + 128 * m) % 128 + 128) := by
            rw [← UInt8.toNat_inj, toNat_group]
            omega
          have hdiv : (b.toNat % 128 + 128 * m) / 128 = m := by omega
          rw [encode_large (by dsimp only; omega), hdiv, ← ih hmin.tail hm, ← hgroup]

/-! ## §5 The bytes of an encoding -/

/-- The number whose groups are the lower seven bits of the bytes. -/
def value : List UInt8 → Nat
  | [] => 0
  | b :: bytes => b.toNat % 128 + 128 * value bytes

@[simp] theorem value_nil : value [] = 0 := rfl

theorem value_append (front back : List UInt8) :
    value (front ++ back) = value front + value back * 128 ^ front.length := by
  induction front with
  | nil => simp
  | cons b front ih =>
    rw [List.cons_append, value, value, ih, List.length_cons, Nat.pow_succ, Nat.mul_add,
      Nat.add_assoc, Nat.mul_comm (128 ^ front.length), Nat.mul_left_comm]

theorem value_lt (bytes : List UInt8) : value bytes < 128 ^ bytes.length := by
  induction bytes with
  | nil => decide
  | cons b bytes ih =>
    rw [value, List.length_cons, Nat.pow_succ]
    omega

theorem value_encode {k n : Nat} (h : n < 128 ^ k) : value (encode k n) = n := by
  induction k generalizing n with
  | zero =>
    rw [Nat.pow_zero] at h
    rw [encode, value]
    omega
  | succ k ih =>
    by_cases hn : n < 128
    · rw [encode_small hn, value, toNat_last hn, Nat.mod_eq_of_lt hn, value]
      rfl
    · rw [encode_large (Nat.not_lt.mp hn), value, toNat_group, ih (div_lt_pow h)]
      omega

theorem length_encode_le (k n : Nat) : (encode k n).length ≤ k := by
  induction k generalizing n with
  | zero => exact Nat.le_refl 0
  | succ k ih =>
    have hrest := ih (n / 128)
    rw [encode]
    split
    · simp
    · rw [List.length_cons]
      omega

/-- **Bit 7 is set in all bytes but the last** of a number that fits. -/
theorem encode_shape {k n : Nat} (h : n < 128 ^ (k + 1)) :
    ∃ front last, encode (k + 1) n = front ++ [last] ∧ (∀ b ∈ front, 128 ≤ b.toNat) ∧
      last.toNat < 128 := by
  induction k generalizing n with
  | zero =>
    have hn : n < 128 := by simpa using h
    exact ⟨[], UInt8.ofNat n, encode_small hn, by simp, by rwa [toNat_last hn]⟩
  | succ k ih =>
    by_cases hn : n < 128
    · exact ⟨[], UInt8.ofNat n, encode_small hn, by simp, by rwa [toNat_last hn]⟩
    · obtain ⟨front, last, hencode, hfront, hlast⟩ := ih (div_lt_pow h)
      have hgroup := toNat_group n
      refine ⟨UInt8.ofNat (n % 128 + 128) :: front, last, ?_, ?_, hlast⟩
      · rw [encode_large (Nat.not_lt.mp hn), hencode, List.cons_append]
      · intro b hb
        cases List.mem_cons.mp hb with
        | inl heq => rw [heq]; omega
        | inr hb => exact hfront b hb

/-- A number that does not fit into `k` bytes has bit 7 set in all of them. -/
theorem encode_overlong {k j n : Nat} (h : 128 ^ k ≤ n) (hk : k < j) :
    ∃ front back, encode j n = front ++ back ∧ front.length = k ∧ (∀ b ∈ front, 128 ≤ b.toNat) ∧
      back ≠ [] := by
  induction k generalizing j n with
  | zero =>
    obtain ⟨j, rfl⟩ : ∃ i, j = i + 1 := ⟨j - 1, by omega⟩
    exact ⟨[], encode (j + 1) n, rfl, rfl, by simp, encode_ne_nil j n⟩
  | succ k ih =>
    obtain ⟨j, rfl⟩ : ∃ i, j = i + 1 := ⟨j - 1, by omega⟩
    have hn : 128 ≤ n := by
      have hpow : 128 ^ 1 ≤ 128 ^ (k + 1) := Nat.pow_le_pow_right (by decide) (by omega)
      omega
    obtain ⟨front, back, hencode, hlength, hfront, hback⟩ := ih (pow_le_div h) (by omega : k < j)
    have hgroup := toNat_group n
    refine ⟨UInt8.ofNat (n % 128 + 128) :: front, back, ?_, by simp [hlength], ?_, hback⟩
    · rw [encode_large hn, hencode, List.cons_append]
    · intro b hb
      cases List.mem_cons.mp hb with
      | inl heq => rw [heq]; omega
      | inr hb => exact hfront b hb

end Acatl.Lib.Base128

/-
Acatl.Lib.CInteger — the integer types of C++, for any widths.

  `Platform`     the width of the types of every conversion rank.
  `wrap`         the conversion of a number to a type, modulo a power of two;
                 it changes no number that is in range (`wrap_eq`).
  `promote`, `common`
                 the integral promotions and the usual arithmetic conversions.
  `less`         a comparison by the built-in operator, after them.
  `lp64`         the platforms with a `long` of 64 bits.

A comparison is exact unless a negative value is converted to an unsigned type:
it is for values that are not negative (`exact_nonneg`), for two signed types
(`exact_signed`), and for a signed type that is wider than the unsigned one
(`exact_wider`).
-/
import Mathlib.Algebra.Group.Nat.Defs
import Mathlib.Order.Basic
import Mathlib.Tactic.Common

namespace Acatl.Lib.CInteger

/-! ## §1 Types -/

/-- A greater rank is no smaller in width. -/
structure Platform where
  width : Nat → Nat
  intRank : Nat
  width_pos : ∀ rank, 0 < width rank
  width_mono : ∀ {r s}, r ≤ s → width r ≤ width s

/-- `variant` tells types of one rank and signedness apart, as `char` is neither
`signed char` nor `unsigned char`. -/
structure IntType where
  rank : Nat
  signed : Bool
  variant : Nat := 0
  deriving DecidableEq

namespace Platform

variable (P : Platform)

/-- How many values a type has. -/
def count (T : IntType) : Nat := 2 ^ P.width T.rank

/-- How many of them are negative, if it is signed. -/
def half (T : IntType) : Nat := 2 ^ (P.width T.rank - 1)

/-- `std::numeric_limits<T>::min()`. -/
def min (T : IntType) : Int := if T.signed then -(P.half T : Int) else 0

/-- `std::numeric_limits<T>::max()`. -/
def max (T : IntType) : Int := if T.signed then (P.half T : Int) - 1 else (P.count T : Int) - 1

def InRange (T : IntType) (v : Int) : Prop := P.min T ≤ v ∧ v ≤ P.max T

instance (T : IntType) (v : Int) : Decidable (P.InRange T v) :=
  inferInstanceAs (Decidable (_ ∧ _))

/-- The values of a type. -/
def Value (T : IntType) := { v : Int // P.InRange T v }

/-- The value of a type that is congruent to a number. -/
def wrap (T : IntType) (v : Int) : Int :=
  if T.signed then v.bmod (P.count T) else v % (P.count T : Int)

variable {P}

theorem half_pos (T : IntType) : 0 < P.half T := Nat.pow_pos (by decide)

theorem count_eq (T : IntType) : P.count T = 2 * P.half T := by
  have hwidth : P.width T.rank = P.width T.rank - 1 + 1 :=
    (Nat.sub_add_cancel (P.width_pos T.rank)).symm
  rw [count, half, hwidth, Nat.pow_succ', Nat.add_sub_cancel]

theorem min_unsigned {T : IntType} (h : T.signed = false) : P.min T = 0 := by simp [min, h]

theorem min_nonpos (T : IntType) : P.min T ≤ 0 := by
  rw [min]
  split <;> omega

theorem max_nonneg (T : IntType) : 0 ≤ P.max T := by
  have hhalf := half_pos (P := P) T
  have hcount := count_eq (P := P) T
  rw [max]
  split <;> omega

theorem wrap_inRange (T : IntType) (v : Int) : P.InRange T (P.wrap T v) := by
  have hhalf := half_pos (P := P) T
  have hcount := count_eq (P := P) T
  rw [InRange, min, max, wrap]
  split
  · have hle := Int.le_bmod (x := v) (m := P.count T) (by omega)
    have hlt := Int.bmod_lt (x := v) (m := P.count T) (by omega)
    omega
  · have hnonneg := Int.emod_nonneg v (b := P.count T) (by omega)
    have hlt := Int.emod_lt_of_pos v (b := P.count T) (by omega)
    omega

/-- A number in range stays as it is. -/
theorem wrap_eq {T : IntType} {v : Int} (h : P.InRange T v) : P.wrap T v = v := by
  have hhalf := half_pos (P := P) T
  have hcount := count_eq (P := P) T
  rw [InRange, min, max] at h
  rw [wrap]
  by_cases hsigned : T.signed = true
  · rw [if_pos hsigned, if_pos hsigned] at h
    rw [if_pos hsigned]
    exact Int.bmod_eq_of_le (by omega) (by omega)
  · rw [if_neg hsigned, if_neg hsigned] at h
    rw [if_neg hsigned]
    exact Int.emod_eq_of_lt h.1 (by omega)

/-- Only the residue matters. -/
theorem wrap_eq_of_emod {T : IntType} {v n : Int} (h : v % P.count T = n % P.count T)
    (hn : P.InRange T n) : P.wrap T v = n := by
  rw [← wrap_eq hn, wrap, wrap]
  split
  · rw [← Int.emod_bmod, h, Int.emod_bmod]
  · exact h

theorem wrap_emod (T : IntType) (v : Int) : P.wrap T v % P.count T = v % P.count T := by
  rw [wrap]
  split
  · exact Int.bmod_emod
  · exact Int.emod_emod _ _

variable (P)

/-- `static_cast<T>(v)`. -/
def cast (T : IntType) (v : Int) : P.Value T := ⟨P.wrap T v, wrap_inRange T v⟩

/-! ## §2 Conversions -/

def int : IntType := { rank := P.intRank, signed := true }

def unsignedInt : IntType := { rank := P.intRank, signed := false }

/-- The integral promotions. -/
def promote (T : IntType) : IntType :=
  if T.rank < P.intRank then
    if P.min P.int ≤ P.min T ∧ P.max T ≤ P.max P.int then P.int else P.unsignedInt
  else T

/-- The usual arithmetic conversions, of two types of which one is signed. -/
def mixed (s u : IntType) : IntType :=
  if s.rank ≤ u.rank then u
  else if P.max u ≤ P.max s then s
  else { s with signed := false }

/-- The usual arithmetic conversions, of promoted types. -/
def balance (A B : IntType) : IntType :=
  if A = B then A
  else if A.signed = B.signed then if A.rank < B.rank then B else A
  else if A.signed then P.mixed A B
  else P.mixed B A

/-- The type in which `A` and `B` are compared. -/
def common (A B : IntType) : IntType := P.balance (P.promote A) (P.promote B)

/-- `a < b`. -/
def less (A : IntType) (a : Int) (B : IntType) (b : Int) : Prop :=
  P.wrap (P.common A B) a < P.wrap (P.common A B) b

/-- `a > b`. -/
def greater (A : IntType) (a : Int) (B : IntType) (b : Int) : Prop :=
  P.wrap (P.common A B) a > P.wrap (P.common A B) b

instance (A : IntType) (a : Int) (B : IntType) (b : Int) : Decidable (P.less A a B b) :=
  inferInstanceAs (Decidable (_ < _))

instance (A : IntType) (a : Int) (B : IntType) (b : Int) : Decidable (P.greater A a B b) :=
  inferInstanceAs (Decidable (_ > _))

/-! ## §3 What the conversions keep -/

variable {P}

theorem half_mono {A B : IntType} (h : A.rank ≤ B.rank) : P.half A ≤ P.half B :=
  Nat.pow_le_pow_right (by decide) (Nat.sub_le_sub_right (P.width_mono h) 1)

/-- A signed type holds an unsigned type that is narrower. -/
theorem max_le_of_wider {s u : IntType} (hs : s.signed = true) (hu : u.signed = false)
    (hwider : P.width u.rank < P.width s.rank) : P.max u ≤ P.max s := by
  have hle : P.count u ≤ P.half s :=
    Nat.pow_le_pow_right (by decide) (Nat.le_sub_one_of_lt hwider)
  rw [max, max, if_pos hs, if_neg (by rw [hu]; decide)]
  omega

/-- The type of an equal or greater rank holds what is not negative, if it is
unsigned or both are signed. -/
theorem max_mono {A B : IntType} (h : A.rank ≤ B.rank)
    (hsigned : B.signed = true → A.signed = true) : P.max A ≤ P.max B := by
  have hhalf := half_mono (P := P) h
  have hposA := half_pos (P := P) A
  have hcountA := count_eq (P := P) A
  have hcountB := count_eq (P := P) B
  rw [max, max]
  by_cases hB : B.signed = true
  · rw [if_pos hB, if_pos (hsigned hB)]
    omega
  · rw [if_neg hB]
    split <;> omega

theorem min_anti {A B : IntType} (h : A.rank ≤ B.rank) (hB : B.signed = true) :
    P.min B ≤ P.min A := by
  have hhalf := half_mono (P := P) h
  rw [min, min, if_pos hB]
  split <;> omega

theorem max_le_promote (T : IntType) : P.max T ≤ P.max (P.promote T) := by
  rw [promote]
  split
  · rename_i hrank
    split
    · exact ‹_ ∧ _›.2
    · exact max_mono (Nat.le_of_lt hrank) (fun h => by cases h)
  · exact Int.le_refl _

theorem promote_signed {T : IntType} (h : T.signed = true) : (P.promote T).signed = true := by
  rw [promote]
  split
  · rename_i hrank
    have hint : P.min P.int ≤ P.min T ∧ P.max T ≤ P.max P.int :=
      ⟨min_anti (Nat.le_of_lt hrank) rfl, max_mono (Nat.le_of_lt hrank) fun _ => h⟩
    rw [if_pos hint]
    rfl
  · exact h

theorem max_le_mixed {s u : IntType} (hu : u.signed = false) :
    P.max s ≤ P.max (P.mixed s u) ∧ P.max u ≤ P.max (P.mixed s u) := by
  rw [mixed]
  split
  · rename_i hrank
    exact ⟨max_mono hrank fun h => absurd (h.symm.trans hu) (by decide), Int.le_refl _⟩
  · rename_i hrank
    split
    · exact ⟨Int.le_refl _, ‹_›⟩
    · exact ⟨max_mono (Nat.le_refl _) fun h => absurd h Bool.false_ne_true,
        max_mono (Nat.le_of_lt (Nat.lt_of_not_le hrank)) fun h => absurd h Bool.false_ne_true⟩

/-- Nothing of either type is too large for the type they are compared in. -/
theorem max_le_balance (A B : IntType) :
    P.max A ≤ P.max (P.balance A B) ∧ P.max B ≤ P.max (P.balance A B) := by
  rw [balance]
  split
  · rename_i heq
    exact ⟨Int.le_refl _, heq ▸ Int.le_refl _⟩
  split
  · rename_i hsame
    split
    · rename_i hlt
      exact ⟨max_mono (Nat.le_of_lt hlt) fun h => hsame ▸ h, Int.le_refl _⟩
    · rename_i hlt
      exact ⟨Int.le_refl _, max_mono (Nat.le_of_not_lt hlt) fun h => hsame ▸ h⟩
  split
  · rename_i hne hA
    have hB : B.signed = false := by
      rw [hA] at hne
      exact (Bool.eq_false_or_eq_true _).resolve_left fun h => hne h.symm
    exact max_le_mixed hB
  · rename_i hA
    exact (max_le_mixed (Bool.eq_false_iff.mpr hA)).symm

theorem max_le_common (A B : IntType) :
    P.max A ≤ P.max (P.common A B) ∧ P.max B ≤ P.max (P.common A B) := by
  obtain ⟨hA, hB⟩ := max_le_balance (P := P) (P.promote A) (P.promote B)
  exact ⟨Int.le_trans (max_le_promote A) hA, Int.le_trans (max_le_promote B) hB⟩

/-- Two signed types are compared in a signed type. -/
theorem balance_signed {A B : IntType} (hA : A.signed = true) (hB : B.signed = true) :
    (P.balance A B).signed = true := by
  rw [balance]
  split
  · exact hA
  · rw [if_pos (hA.trans hB.symm)]
    split
    · exact hB
    · exact hA

theorem rank_lt_of_wider {s u : IntType} (hwider : P.width u.rank < P.width s.rank) :
    u.rank < s.rank := by
  by_contra hle
  exact absurd (P.width_mono (Nat.le_of_not_lt hle)) (Nat.not_le_of_lt hwider)

/-- A signed type of a greater rank, wider than an unsigned type, is what the two
are compared in. -/
theorem balance_of_wider {s u : IntType} (hs : s.signed = true) (hu : u.signed = false)
    (hwider : P.width u.rank < P.width s.rank) : P.balance s u = s := by
  have hne : s.signed ≠ u.signed := by rw [hs, hu]; decide
  rw [balance, if_neg (fun h => hne (congrArg _ h)), if_neg hne, if_pos hs, mixed,
    if_neg (Nat.not_le_of_lt (rank_lt_of_wider hwider)), if_pos (max_le_of_wider hs hu hwider)]

theorem promote_of_le {T : IntType} (h : P.intRank ≤ T.rank) : P.promote T = T := by
  rw [promote, if_neg (Nat.not_lt_of_le h)]

/-- A type that `int` does not hold is no narrower than `int`. -/
theorem promote_eq {u : IntType} (hu : u.signed = false) (h : u.rank < P.intRank) :
    P.promote u = P.int ∨
      P.promote u = P.unsignedInt ∧ P.width P.intRank ≤ P.width u.rank := by
  rw [promote, if_pos h]
  split
  · exact .inl rfl
  · rename_i hno
    refine .inr ⟨rfl, ?_⟩
    by_contra hlt
    refine hno ⟨?_, max_le_of_wider rfl hu (Nat.lt_of_not_le hlt)⟩
    rw [min_unsigned hu]
    exact min_nonpos _

/-- The promotions do not change that. -/
theorem common_signed_of_wider {s u : IntType} (hs : s.signed = true) (hu : u.signed = false)
    (hwider : P.width u.rank < P.width s.rank) : (P.common s u).signed = true := by
  have hrank := rank_lt_of_wider hwider
  rw [common]
  by_cases hint : u.rank < P.intRank
  · obtain hpromote | ⟨hpromote, hwidth⟩ := promote_eq hu hint
    · rw [hpromote]
      exact balance_signed (promote_signed hs) rfl
    · have hwider' : P.width P.unsignedInt.rank < P.width s.rank := Nat.lt_of_le_of_lt hwidth hwider
      have hle : P.intRank ≤ s.rank := Nat.le_of_lt (rank_lt_of_wider hwider')
      rw [hpromote, promote_of_le hle, balance_of_wider hs rfl hwider']
      exact hs
  · have hle : P.intRank ≤ u.rank := Nat.le_of_not_lt hint
    rw [promote_of_le hle, promote_of_le (Nat.le_trans hle (Nat.le_of_lt hrank)),
      balance_of_wider hs hu hwider]
    exact hs

/-! ## §4 Comparisons -/

theorem inRange_of_max_le {A C : IntType} {v : Int} (h : P.InRange A v)
    (hmax : P.max A ≤ P.max C) (hsign : 0 ≤ v ∨ A.signed = true ∧ C.signed = true) :
    P.InRange C v := by
  refine ⟨?_, Int.le_trans h.2 hmax⟩
  rcases hsign with hnonneg | ⟨hA, hC⟩
  · exact Int.le_trans (min_nonpos C) hnonneg
  · have hlow := h.1
    rw [max, max, if_pos hA, if_pos hC] at hmax
    rw [min, if_pos hA] at hlow
    rw [min, if_pos hC]
    omega

variable (P)

/-- The two values are compared as they are. -/
structure Exact (A : IntType) (a : Int) (B : IntType) (b : Int) : Prop where
  left : P.InRange (P.common A B) a
  right : P.InRange (P.common A B) b

variable {P}

section

variable {A B : IntType} {a b : Int}

theorem Exact.less_iff (h : P.Exact A a B b) : P.less A a B b ↔ a < b := by
  rw [less, wrap_eq h.left, wrap_eq h.right]

theorem Exact.greater_iff (h : P.Exact A a B b) : P.greater A a B b ↔ a > b := by
  rw [greater, wrap_eq h.left, wrap_eq h.right]

theorem exact_nonneg (ha : P.InRange A a) (hb : P.InRange B b) (ha0 : 0 ≤ a) (hb0 : 0 ≤ b) :
    P.Exact A a B b :=
  ⟨inRange_of_max_le ha (max_le_common A B).1 (.inl ha0),
    inRange_of_max_le hb (max_le_common A B).2 (.inl hb0)⟩

theorem exact_signed (ha : P.InRange A a) (hb : P.InRange B b) (hA : A.signed = true)
    (hB : B.signed = true) : P.Exact A a B b := by
  have hsigned : (P.common A B).signed = true :=
    balance_signed (promote_signed hA) (promote_signed hB)
  exact ⟨inRange_of_max_le ha (max_le_common A B).1 (.inr ⟨hA, hsigned⟩),
    inRange_of_max_le hb (max_le_common A B).2 (.inr ⟨hB, hsigned⟩)⟩

theorem exact_wider (ha : P.InRange A a) (hb : P.InRange B b) (hA : A.signed = true)
    (hB : B.signed = false) (hwider : P.width B.rank < P.width A.rank) :
    P.Exact A a B b := by
  have hsigned : (P.common A B).signed = true := common_signed_of_wider hA hB hwider
  have hb0 : 0 ≤ b := by
    have hlow := hb.1
    rwa [min_unsigned hB] at hlow
  exact ⟨inRange_of_max_le ha (max_le_common A B).1 (.inr ⟨hA, hsigned⟩),
    inRange_of_max_le hb (max_le_common A B).2 (.inl hb0)⟩

end

end Platform

/-! ## §5 LP64 -/

/-- The widths of `char`, `short`, `int`, `long` and `long long`. -/
def lp64Width (rank : Nat) : Nat :=
  if rank = 0 then 8 else if rank = 1 then 16 else if rank = 2 then 32 else 64

/-- The platforms whose `long` is twice as wide as their `int`. -/
def lp64 : Platform where
  width := lp64Width
  intRank := 2
  width_pos rank := by
    unfold lp64Width
    grind
  width_mono h := by
    unfold lp64Width
    grind

def long : IntType := { rank := 3, signed := true }

def unsignedLong : IntType := { rank := 3, signed := false }

def unsignedLongLong : IntType := { rank := 4, signed := false }

end Acatl.Lib.CInteger

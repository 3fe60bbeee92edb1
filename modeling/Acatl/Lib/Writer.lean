/-
Acatl.Lib.Writer — a buffer of fixed size, and a position that moves forward
with every element written.

A store behind the end of the buffer changes nothing, and `written` keeps the
index, so that a program can be asked where it writes. `Emits f bytes` says
that a program writes these bytes from its position on, once or several times
each, and nothing else; such programs compose (`Emits.comp`), and at the end
the buffer holds what was emitted (`Emits.taken`).

Nothing here is about packets.
-/
import Mathlib.Data.List.Basic

namespace Acatl.Lib

/-- A buffer that is being filled. -/
structure Writer (β : Type) where
  buffer : List β
  position : Nat
  /-- every index that was stored to -/
  written : List Nat := []

namespace Writer

variable {β : Type}

/-! ## §1 Stores -/

/-- `buffer[position] = b`. -/
def store (b : β) (w : Writer β) : Writer β :=
  { w with buffer := w.buffer.set w.position b, written := w.position :: w.written }

/-- `buffer[position] = g(buffer[position])`. -/
def change (g : β → β) (w : Writer β) : Writer β :=
  { w with buffer := w.buffer.modify w.position g, written := w.position :: w.written }

/-- `++position`. -/
def advance (w : Writer β) : Writer β := { w with position := w.position + 1 }

/-- `buffer[position++] = b`. -/
def put (b : β) (w : Writer β) : Writer β := (w.store b).advance

/-- Some elements, one behind the other. -/
def puts (bytes : List β) (w : Writer β) : Writer β := bytes.foldl (fun w b => w.put b) w

/-- No store was behind the end. -/
def InBounds (w : Writer β) : Prop := ∀ i ∈ w.written, i < w.buffer.length

instance (w : Writer β) : Decidable w.InBounds :=
  inferInstanceAs (Decidable (∀ i ∈ w.written, i < w.buffer.length))

/-! ## §2 What a program emits -/

/-- From its position on the program writes these bytes, and nothing else. -/
structure Emits (f : Writer β → Writer β) (bytes : List β) : Prop where
  position : ∀ w, (f w).position = w.position + bytes.length
  size : ∀ w, (f w).buffer.length = w.buffer.length
  written : ∀ w i, i ∈ (f w).written ↔
    i ∈ w.written ∨ w.position ≤ i ∧ i < w.position + bytes.length
  buffer : ∀ w front old back, w.buffer = front ++ (old ++ back) → w.position = front.length →
    old.length = bytes.length → (f w).buffer = front ++ (bytes ++ back)

/-- The program leaves this byte at its position, and does not move. -/
structure Stores (f : Writer β → Writer β) (b : β) : Prop where
  position : ∀ w, (f w).position = w.position
  size : ∀ w, (f w).buffer.length = w.buffer.length
  written : ∀ w i, i ∈ (f w).written ↔ i ∈ w.written ∨ i = w.position
  buffer : ∀ w front old back, w.buffer = front ++ old :: back → w.position = front.length →
    (f w).buffer = front ++ b :: back

theorem Stores.store (b : β) : Stores (store b) b where
  position _ := rfl
  size _ := List.length_set
  written w i := by
    show i ∈ w.position :: w.written ↔ _
    rw [List.mem_cons, or_comm]
  buffer w front old back hbuffer hposition := by
    show w.buffer.set w.position b = _
    rw [hbuffer, hposition, List.set_append_right _ _ (Nat.le_refl _), Nat.sub_self,
      List.set_cons_zero]

theorem Stores.change {f : Writer β → Writer β} {b : β} (hf : Stores f b) (g : β → β) :
    Stores (fun w => (f w).change g) (g b) where
  position w := hf.position w
  size w := by
    show ((f w).buffer.modify _ g).length = _
    rw [List.length_modify, hf.size]
  written w i := by
    show i ∈ (f w).position :: (f w).written ↔ _
    rw [List.mem_cons, hf.written, hf.position]
    tauto
  buffer w front old back hbuffer hposition := by
    show (f w).buffer.modify (f w).position g = _
    rw [hf.buffer w front old back hbuffer hposition, hf.position, hposition,
      List.modify_eq_take_cons_drop (by simp)]
    simp

/-- A change that the program may leave out. -/
theorem Stores.changeIf {f : Writer β → Writer β} {b : β} (hf : Stores f b) (c : Bool)
    (g : β → β) :
    Stores (fun w => if c then (f w).change g else f w) (if c then g b else b) := by
  cases c with
  | false => exact hf
  | true => exact hf.change g

/-- The stored byte is emitted by moving on. -/
theorem Stores.advance {f : Writer β → Writer β} {b : β} (hf : Stores f b) :
    Emits (fun w => (f w).advance) [b] where
  position w := congrArg (· + 1) (hf.position w)
  size w := hf.size w
  written w i := by
    show i ∈ (f w).written ↔ _
    rw [hf.written, List.length_singleton]
    have hrange : i = w.position ↔ w.position ≤ i ∧ i < w.position + 1 := by omega
    rw [hrange]
  buffer w front old back hbuffer hposition hold := by
    obtain ⟨o, rfl⟩ := List.length_eq_one_iff.mp hold
    exact hf.buffer w front o back hbuffer hposition

namespace Emits

/-! ## §3 Composition -/

protected theorem id : Emits (fun w : Writer β => w) [] where
  position _ := rfl
  size _ := rfl
  written w i := by
    have hnone : ¬ (w.position ≤ i ∧ i < w.position + ([] : List β).length) := by
      rw [List.length_nil]
      omega
    rw [or_iff_left hnone]
  buffer w front old back hbuffer _ hold := by
    obtain rfl := List.length_eq_zero_iff.mp hold
    exact hbuffer

/-- A program that does the same. -/
theorem congr {f g : Writer β → Writer β} {as bs : List β} (hf : Emits f as)
    (h : ∀ w, g w = f w) (hbytes : bs = as) : Emits g bs := by
  obtain rfl : g = f := funext h
  rwa [hbytes]

/-- **One program behind the other.** -/
theorem comp {f g : Writer β → Writer β} {as bs : List β} (hf : Emits f as) (hg : Emits g bs) :
    Emits (fun w => g (f w)) (as ++ bs) where
  position w := by rw [hg.position, hf.position, List.length_append, Nat.add_assoc]
  size w := by rw [hg.size, hf.size]
  written w i := by
    rw [hg.written, hf.written, hf.position, List.length_append, or_assoc]
    refine or_congr_right ?_
    omega
  buffer w front old back hbuffer hposition hold := by
    rw [List.length_append] at hold
    have hsplit : w.buffer = front ++ (old.take as.length ++ (old.drop as.length ++ back)) := by
      rw [hbuffer, ← List.append_assoc (old.take _), List.take_append_drop]
    have hfirst := hf.buffer w front _ _ hsplit hposition (by rw [List.length_take]; omega)
    have hsecond := hg.buffer (f w) (front ++ as) (old.drop as.length) back
      (by rw [hfirst, List.append_assoc]) (by rw [hf.position, hposition, List.length_append])
      (by rw [List.length_drop]; omega)
    rw [hsecond, List.append_assoc, List.append_assoc]

theorem put (b : β) : Emits (put b) [b] := (Stores.store b).advance

/-- A program that the condition may leave out. -/
theorem when {f : Writer β → Writer β} {bytes : List β} (hf : Emits f bytes) (c : Bool) :
    Emits (fun w => if c then f w else w) (if c then bytes else []) := by
  cases c with
  | false => exact .id
  | true => exact hf

/-- A program for every element of a list. -/
theorem forEach {α : Type} {f : α → Writer β → Writer β} {bytes : α → List β}
    (hf : ∀ a, Emits (f a) (bytes a)) (as : List α) :
    Emits (fun w => as.foldl (fun w a => f a w) w) (as.flatMap bytes) := by
  induction as with
  | nil => exact .id
  | cons a as ih => exact (hf a).comp ih

theorem puts (bytes : List β) : Emits (puts bytes) bytes := by
  have h := forEach (f := Writer.put) Emits.put bytes
  rwa [List.flatMap_singleton'] at h

/-! ## §4 The buffer afterwards -/

variable {f : Writer β → Writer β} {bytes : List β}

/-- A program that starts at the front writes inside the buffer exactly when
the buffer has room for what it emits. -/
theorem inBounds_iff (hf : Emits f bytes) (buffer : List β) :
    (f ⟨buffer, 0, []⟩).InBounds ↔ bytes.length ≤ buffer.length := by
  unfold InBounds
  rw [hf.size]
  constructor
  · intro h
    by_contra hshort
    have hlast := h buffer.length ((hf.written _ _).mpr (.inr ⟨Nat.zero_le _, by simp; omega⟩))
    exact Nat.lt_irrefl _ hlast
  · intro h i hi
    rcases (hf.written _ _).mp hi with hi | ⟨-, hi⟩
    · cases hi
    · rw [Nat.zero_add] at hi
      exact Nat.lt_of_lt_of_le hi h

/-- **The front of the buffer is what was emitted.** -/
theorem taken (hf : Emits f bytes) {buffer : List β} (h : (f ⟨buffer, 0, []⟩).InBounds) :
    (f ⟨buffer, 0, []⟩).buffer.take (f ⟨buffer, 0, []⟩).position = bytes := by
  have hroom := (hf.inBounds_iff buffer).mp h
  have hbuffer := hf.buffer ⟨buffer, 0, []⟩ [] (buffer.take bytes.length)
    (buffer.drop bytes.length) (by simp) rfl (by rw [List.length_take]; omega)
  rw [hbuffer, hf.position, Nat.zero_add, List.nil_append, List.take_left]

end Emits

end Writer

end Acatl.Lib

/-
Acatl.Lib.Bidirectional — two partial steps, one forwards and one backwards.

`Linked s rest last` is a chain of states from `s` to `last`, each of which the
forward step leads to from the one before it and the backward step leads back
from. A walk along such a chain and the walk back meet the same states
(`walkTo_linked`, `walkBack_linked`).

Nothing here is about iterators of a particular container.
-/
import Mathlib.Tactic.Common

namespace Acatl.Lib.Bidirectional

variable {S : Type}

/-- The states from `s` on up to the first one that is at `stop`, without it. -/
def walkTo (step : S → Option S) (stop : S → Bool) : Nat → S → Option (List S)
  | 0, _ => none
  | fuel + 1, s =>
    if stop s then some [] else (step s).bind fun t => (walkTo step stop fuel t).map (s :: ·)

/-- The states from `s` on up to the first one that is at `stop`, with it. -/
def walkThrough (step : S → Option S) (stop : S → Bool) : Nat → S → Option (List S)
  | 0, _ => none
  | fuel + 1, s =>
    if stop s then some [s]
    else (step s).bind fun t => (walkThrough step stop fuel t).map (s :: ·)

/-- From the first state through the others to the last one, and back. -/
inductive Linked (next prev : S → Option S) : S → List S → S → Prop
  | last (s : S) : Linked next prev s [] s
  | cons {s t last : S} {rest : List S} (hnext : next s = some t) (hprev : prev t = some s)
      (h : Linked next prev t rest last) : Linked next prev s (t :: rest) last

variable {next prev : S → Option S} {s last : S} {rest : List S}

/-- **The walk forwards meets the chain.** -/
theorem walkTo_linked (h : Linked next prev s rest last) {stop : S → Bool} {e : S}
    (hend : next last = some e) (hstop : stop e = true) (hall : ∀ t ∈ s :: rest, stop t = false) :
    walkTo next stop (rest.length + 2) s = some (s :: rest) := by
  induction h with
  | last s =>
    have hs : stop s = false := hall s (by simp)
    simp [walkTo, hs, hend, hstop]
  | @cons s t last rest hnext hprev h ih =>
    have hs : stop s = false := hall s (by simp)
    have hrest := ih hend fun u hu => hall u (by simp at hu ⊢; tauto)
    rw [List.length_cons, walkTo, hs, if_neg Bool.false_ne_true, hnext, Option.bind_some, hrest]
    rfl

/-- How many steps a walk may have does not matter, if they are enough. -/
theorem walkTo_unique {step : S → Option S} {stop : S → Bool} {m n : Nat} {its its' : List S}
    (h : walkTo step stop m s = some its) (h' : walkTo step stop n s = some its') :
    its = its' := by
  induction m generalizing n s its its' with
  | zero => cases h
  | succ m ih =>
    cases n with
    | zero => cases h'
    | succ n =>
      rw [walkTo] at h h'
      split at h
      · rename_i hs
        rw [if_pos hs] at h'
        cases h
        cases h'
        rfl
      · rename_i hs
        rw [if_neg hs] at h'
        obtain ⟨t, ht, hrest⟩ := Option.bind_eq_some_iff.mp h
        obtain ⟨t', ht', hrest'⟩ := Option.bind_eq_some_iff.mp h'
        obtain rfl : t = t' := Option.some.inj (ht.symm.trans ht')
        obtain ⟨rest, hwalk, rfl⟩ := Option.map_eq_some_iff.mp hrest
        obtain ⟨rest', hwalk', rfl⟩ := Option.map_eq_some_iff.mp hrest'
        rw [ih hwalk hwalk']

/-- Steps that agree on the states of a walk. -/
theorem walkTo_congr {step step' : S → Option S} {inv : S → Prop}
    (h : ∀ s, inv s → step s = step' s ∧ ∀ t, step s = some t → inv t) {stop : S → Bool}
    (hs : inv s) (fuel : Nat) : walkTo step stop fuel s = walkTo step' stop fuel s := by
  induction fuel generalizing s with
  | zero => rfl
  | succ fuel ih =>
    obtain ⟨hstep, hnext⟩ := h s hs
    rw [walkTo, walkTo, ← hstep]
    cases ht : step s with
    | none => rfl
    | some t => rw [Option.bind_some, Option.bind_some, ih (hnext t ht)]

/-- A walk that is not over at once meets its first state. -/
theorem mem_walkTo {step : S → Option S} {stop : S → Bool} {fuel : Nat} {its : List S}
    (h : walkTo step stop fuel s = some its) (hs : stop s = false) : s ∈ its := by
  cases fuel with
  | zero => cases h
  | succ fuel =>
    rw [walkTo, hs, if_neg Bool.false_ne_true] at h
    obtain ⟨t, -, ht⟩ := Option.bind_eq_some_iff.mp h
    obtain ⟨rest, -, rfl⟩ := Option.map_eq_some_iff.mp ht
    exact List.mem_cons_self

/-- The walk back from the last state comes to the first one. -/
theorem walkThrough_linked (h : Linked next prev s rest last) {stop : S → Bool}
    (hall : ∀ t ∈ rest, stop t = false) (fuel : Nat) :
    walkThrough prev stop (rest.length + fuel + 1) last =
      (walkThrough prev stop (fuel + 1) s).map (rest.reverse ++ ·) := by
  induction h generalizing fuel with
  | last s => simp
  | @cons s t last rest hnext hprev h ih =>
    have ht : stop t = false := hall t (by simp)
    have hback := ih (fun u hu => hall u (by simp [hu])) (fuel + 1)
    have hlength : (t :: rest).length + fuel + 1 = rest.length + (fuel + 1) + 1 := by
      rw [List.length_cons]
      omega
    rw [hlength, hback, walkThrough, ht, if_neg Bool.false_ne_true, hprev, Option.bind_some,
      Option.map_map]
    congr 1
    funext back
    simp

/-- **The walk backwards meets the chain the other way round.** -/
theorem walkBack_linked (h : Linked next prev s rest last) {stop : S → Bool}
    (hstop : stop s = true) (hall : ∀ t ∈ rest, stop t = false) (fuel : Nat) :
    walkThrough prev stop (rest.length + fuel + 1) last = some (s :: rest).reverse := by
  rw [walkThrough_linked h hall, walkThrough, hstop, if_pos rfl, Option.map_some,
    List.reverse_cons]

/-- A step forwards from the chain is undone by a step backwards. -/
theorem Linked.next_prev (h : Linked next prev s rest last)
    (hlast : (next last).bind prev = some last) :
    ∀ t ∈ s :: rest, (next t).bind prev = some t := by
  induction h with
  | last s => simpa using hlast
  | @cons s t last rest hnext hprev h ih =>
    intro u hu
    rcases List.mem_cons.mp hu with rfl | hu
    · rw [hnext, Option.bind_some, hprev]
    · exact ih hlast u hu

/-- A step backwards, from all but the first, is undone by a step forwards. -/
theorem Linked.prev_next (h : Linked next prev s rest last) :
    ∀ t ∈ rest, (prev t).bind next = some t := by
  induction h with
  | last s => simp
  | @cons s t last rest hnext hprev h ih =>
    intro u hu
    rcases List.mem_cons.mp hu with rfl | hu
    · rw [hprev, Option.bind_some, hnext]
    · exact ih u hu

end Acatl.Lib.Bidirectional

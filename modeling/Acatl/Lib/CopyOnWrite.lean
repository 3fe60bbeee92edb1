/-
Acatl.Lib.CopyOnWrite — a value that is changed by publishing changed copies.

A writer begins with a copy of the value that is published, updates its copy,
and publishes it. Only one writer is at work at a time; readers take what is
published whenever they want. The values are objects at addresses, and the
cell holds the address of the one that is published.

  `published_eq`      the value is that of all updates of the writers that have
                      published, in the order in which they did.
  `snapshot_fixed`    what a reader has taken is not changed any more.

Both hold if a value that updates have led to is equal to its copies
(`hcopy`). Nothing here is about locks, or about trees.
-/
import Acatl.Lib.Machine
import Mathlib.Logic.Function.Basic

namespace Acatl.Lib.CopyOnWrite

variable {V U : Type}

/-! ## §1 The cell -/

/-- What a writer has: nothing yet, its own copy, or no copy any more. -/
inductive Stage where
  | before
  | writing (address : Nat)
  | published
  deriving DecidableEq

/-- The objects, the one that is published, the writers and the readers. The
addresses from `next` on are free. -/
structure Cell (V : Type) where
  current : Nat
  objects : Nat → V
  next : Nat
  writers : Nat → Stage
  snapshots : Nat → Option Nat

inductive Op (U : Type) where
  | fork (w : Nat)
  | update (w : Nat) (u : U)
  | publish (w : Nat)
  | take (r : Nat)

/-- A cell with a first value, before any writer. -/
def Cell.init (v : V) : Cell V := ⟨0, fun _ => v, 1, fun _ => .before, fun _ => none⟩

/-- The condition of a step: a writer begins alone. -/
def Enabled (c : Cell V) : Op U → Prop
  | .fork w => c.writers w = .before ∧ ∀ w' p, c.writers w' ≠ .writing p
  | .update w _ => ∃ p, c.writers w = .writing p
  | .publish w => ∃ p, c.writers w = .writing p
  | .take r => c.snapshots r = none

section

variable (copy : V → V) (apply : V → U → V)

def step (c : Cell V) : Op U → Cell V
  | .fork w => { c with
      objects := Function.update c.objects c.next (copy (c.objects c.current))
      next := c.next + 1
      writers := Function.update c.writers w (.writing c.next) }
  | .update w u =>
    match c.writers w with
    | .writing p => { c with objects := Function.update c.objects p (apply (c.objects p) u) }
    | _ => c
  | .publish w =>
    match c.writers w with
    | .writing p => { c with current := p, writers := Function.update c.writers w .published }
    | _ => c
  | .take r => { c with snapshots := Function.update c.snapshots r (some c.current) }

/-- The cell under its operations. -/
def machine : Machine (Cell V) (Op U) Unit := fun c op => ((), step copy apply c op)

end

/-! ## §2 What was published -/

/-- The writers that have published, in that order. -/
def publishers (ops : List (Op U)) : List Nat :=
  ops.filterMap fun
    | .publish w => some w
    | _ => none

/-- The updates of a writer. -/
def updatesOf (ops : List (Op U)) (w : Nat) : List U :=
  ops.filterMap fun
    | .update w' u => if w' = w then some u else none
    | _ => none

/-- The updates of the writers that have published, in the order of these. -/
def publishedUpdates (ops : List (Op U)) : List U := (publishers ops).flatMap (updatesOf ops)

section

variable (ops : List (Op U)) (w w' : Nat) (u : U)

@[simp] theorem publishers_fork : publishers (ops ++ [.fork w]) = publishers ops := by
  simp [publishers]

@[simp] theorem publishers_update : publishers (ops ++ [.update w u]) = publishers ops := by
  simp [publishers]

@[simp] theorem publishers_publish : publishers (ops ++ [.publish w]) = publishers ops ++ [w] := by
  simp [publishers]

@[simp] theorem publishers_take : publishers (ops ++ [.take w]) = publishers ops := by
  simp [publishers]

@[simp] theorem updatesOf_fork : updatesOf (ops ++ [.fork w']) w = updatesOf ops w := by
  simp [updatesOf]

@[simp] theorem updatesOf_update : updatesOf (ops ++ [.update w' u]) w =
    if w' = w then updatesOf ops w ++ [u] else updatesOf ops w := by
  by_cases h : w' = w
  · simp [updatesOf, h]
  · simp [updatesOf, h]

@[simp] theorem updatesOf_publish : updatesOf (ops ++ [.publish w']) w = updatesOf ops w := by
  simp [updatesOf]

@[simp] theorem updatesOf_take : updatesOf (ops ++ [.take w']) w = updatesOf ops w := by
  simp [updatesOf]

end

/-- The published updates are the same if no publisher has made another one. -/
theorem publishedUpdates_congr {ops ops' : List (Op U)}
    (hpublishers : publishers ops' = publishers ops)
    (hupdates : ∀ w ∈ publishers ops, updatesOf ops' w = updatesOf ops w) :
    publishedUpdates ops' = publishedUpdates ops := by
  unfold publishedUpdates
  rw [hpublishers, List.flatMap_def, List.flatMap_def, List.map_congr_left hupdates]

theorem publishedUpdates_publish (ops : List (Op U)) (w : Nat) :
    publishedUpdates (ops ++ [.publish w]) = publishedUpdates ops ++ updatesOf ops w := by
  have hupdates : updatesOf (ops ++ [.publish w]) = updatesOf ops :=
    funext fun w' => updatesOf_publish ops w' w
  unfold publishedUpdates
  rw [hupdates]
  simp

/-! ## §3 Snapshots -/

/-- No writer has the object at the address, or will get it. -/
def Frozen (c : Cell V) (p : Nat) : Prop := p < c.next ∧ ∀ w, c.writers w ≠ .writing p

variable {copy : V → V} {apply : V → U → V}

/-- A step leaves a frozen object as it is, and frozen. -/
theorem frozen_step {c : Cell V} {p : Nat} (h : Frozen c p) (op : Op U) :
    Frozen (step copy apply c op) p ∧ (step copy apply c op).objects p = c.objects p := by
  obtain ⟨hp, hwriters⟩ := h
  cases op with
  | fork w =>
    refine ⟨⟨Nat.lt_succ_of_lt hp, ?_⟩, Function.update_of_ne (Nat.ne_of_lt hp) ..⟩
    show ∀ w', Function.update c.writers w (.writing c.next) w' ≠ .writing p
    rw [Function.forall_update_iff c.writers fun _ stage => stage ≠ .writing p]
    exact ⟨fun heq => absurd (Stage.writing.inj heq) (Nat.ne_of_gt hp), fun w' _ => hwriters w'⟩
  | update w u =>
    unfold step
    dsimp only
    split
    · rename_i q hq
      have hne : p ≠ q := by
        rintro rfl
        exact hwriters w hq
      exact ⟨⟨hp, hwriters⟩, Function.update_of_ne hne ..⟩
    · exact ⟨⟨hp, hwriters⟩, rfl⟩
  | publish w =>
    unfold step
    dsimp only
    split
    · refine ⟨⟨hp, ?_⟩, rfl⟩
      show ∀ w', Function.update c.writers w .published w' ≠ .writing p
      rw [Function.forall_update_iff c.writers fun _ stage => stage ≠ .writing p]
      exact ⟨by simp, fun w' _ => hwriters w'⟩
    · exact ⟨⟨hp, hwriters⟩, rfl⟩
  | take r => exact ⟨⟨hp, hwriters⟩, rfl⟩

/-- **A frozen object stays as it is**, whatever happens. -/
theorem frozen_after {c : Cell V} {p : Nat} (h : Frozen c p) (ops : List (Op U)) :
    ((machine copy apply).after c ops).objects p = c.objects p := by
  have hinv := Machine.inv_after (m := machine copy apply)
    (fun c' => Frozen c' p ∧ c'.objects p = c.objects p) ?_ ⟨h, rfl⟩ ops
  · exact hinv.2
  · intro c' op ⟨hfrozen, hsame⟩
    obtain ⟨hfrozen', hsame'⟩ := frozen_step hfrozen op
    exact ⟨hfrozen', hsame'.trans hsame⟩

/-! ## §4 Published values -/

/-- What holds after some operations on a cell with the first value `v`. -/
structure Coherent (apply : V → U → V) (v : V) (ops : List (Op U)) (c : Cell V) : Prop where
  alone : ∀ w w' p p', c.writers w = .writing p → c.writers w' = .writing p' → w = w'
  allocated : ∀ w p, c.writers w = .writing p → p < c.next
  frozen : Frozen c c.current
  taken : ∀ r p, c.snapshots r = some p → Frozen c p
  publishers : ∀ w, w ∈ publishers ops ↔ c.writers w = .published
  unwritten : ∀ w, c.writers w = .before → updatesOf ops w = []
  value : c.objects c.current = (publishedUpdates ops).foldl apply v
  written : ∀ w p, c.writers w = .writing p →
    c.objects p = (publishedUpdates ops ++ updatesOf ops w).foldl apply v

theorem coherent_init (v : V) : Coherent apply v [] (Cell.init v) where
  alone _ _ _ _ h := by cases h
  allocated _ _ h := by cases h
  frozen := ⟨Nat.zero_lt_one, fun _ h => by cases h⟩
  taken _ _ h := by cases h
  publishers w := by simp [CopyOnWrite.publishers, Cell.init]
  unwritten _ _ := rfl
  value := rfl
  written _ _ h := by cases h

section

variable {v : V} {ops : List (Op U)} {c : Cell V} (h : Coherent apply v ops c)

include h

theorem Coherent.fork (hcopy : ∀ us : List U, copy (us.foldl apply v) = us.foldl apply v) {w : Nat}
    (hw : c.writers w = .before) (hnone : ∀ w' p, c.writers w' ≠ .writing p) :
    Coherent apply v (ops ++ [.fork w]) (step copy apply c (.fork w)) := by
  have hobject : (step copy apply c (.fork w)).objects c.current = c.objects c.current :=
    (frozen_step h.frozen _).2
  have hself : (step copy apply c (.fork w)).writers w = .writing c.next :=
    Function.update_self ..
  have hother : ∀ w' ≠ w, (step copy apply c (.fork w)).writers w' = c.writers w' :=
    fun w' hne => Function.update_of_ne hne ..
  -- this writer is the only one
  have honly : ∀ w' p, (step copy apply c (.fork w)).writers w' = .writing p →
      w' = w ∧ p = c.next := by
    intro w' p hw'
    by_cases heq : w' = w
    · subst heq
      exact ⟨rfl, Stage.writing.inj (hw'.symm.trans hself)⟩
    · rw [hother w' heq] at hw'
      exact absurd hw' (hnone w' p)
  have hpublished : publishedUpdates (ops ++ [.fork w]) = publishedUpdates ops :=
    publishedUpdates_congr (by simp) (by simp)
  refine ⟨?_, ?_, (frozen_step h.frozen _).1, fun r p hr => (frozen_step (h.taken r p hr) _).1,
    ?_, ?_, ?_, ?_⟩
  · intro w₁ w₂ p₁ p₂ h₁ h₂
    rw [(honly w₁ p₁ h₁).1, (honly w₂ p₂ h₂).1]
  · intro w' p hw'
    rw [(honly w' p hw').2]
    exact Nat.lt_succ_self _
  · intro w'
    rw [publishers_fork, h.publishers]
    by_cases heq : w' = w
    · subst heq
      rw [hself, hw]
      simp
    · rw [hother w' heq]
  · intro w' hw'
    rw [updatesOf_fork]
    by_cases heq : w' = w
    · subst heq
      cases hself.symm.trans hw'
    · rw [hother w' heq] at hw'
      exact h.unwritten w' hw'
  · rw [hpublished, ← h.value, ← hobject]
    rfl
  · intro w' p hw'
    obtain ⟨rfl, rfl⟩ := honly w' p hw'
    rw [hpublished, updatesOf_fork, h.unwritten _ hw, List.append_nil]
    show Function.update c.objects c.next (copy (c.objects c.current)) c.next = _
    rw [Function.update_self, h.value, hcopy]

theorem Coherent.update {w p : Nat} (hw : c.writers w = .writing p) (u : U) :
    Coherent apply v (ops ++ [.update w u]) (step copy apply c (.update w u)) := by
  have hobject : (step copy apply c (.update w u)).objects c.current = c.objects c.current :=
    (frozen_step h.frozen _).2
  have hfrozen : ∀ q, Frozen c q → Frozen (step copy apply c (.update w u)) q :=
    fun q hq => (frozen_step hq _).1
  have hstep : step copy apply c (.update w u) =
      { c with objects := Function.update c.objects p (apply (c.objects p) u) } := by
    simp only [step, hw]
  have hpublished : publishedUpdates (ops ++ [.update w u]) = publishedUpdates ops := by
    refine publishedUpdates_congr (by simp) fun w' hw' => ?_
    have hne : w ≠ w' := by
      rintro rfl
      rw [h.publishers, hw] at hw'
      cases hw'
    simp [hne]
  rw [hstep] at hobject hfrozen ⊢
  refine ⟨h.alone, h.allocated, hfrozen _ h.frozen, fun r q hr => hfrozen q (h.taken r q hr),
    ?_, ?_, ?_, ?_⟩
  · intro w'
    rw [publishers_update]
    exact h.publishers w'
  · intro w' hw'
    have hne : w ≠ w' := by
      rintro rfl
      cases hw.symm.trans hw'
    rw [updatesOf_update, if_neg hne]
    exact h.unwritten w' hw'
  · rw [hpublished, ← h.value, ← hobject]
  · intro w' q hw'
    obtain rfl := h.alone _ _ _ _ hw hw'
    obtain rfl := Stage.writing.inj (hw.symm.trans hw')
    rw [hpublished, updatesOf_update, if_pos rfl, ← List.append_assoc, List.foldl_append,
      ← h.written _ _ hw]
    exact Function.update_self ..

theorem Coherent.publish {w p : Nat} (hw : c.writers w = .writing p) :
    Coherent apply v (ops ++ [.publish w]) (step copy apply c (.publish w)) := by
  have hstep : step copy apply c (.publish w) =
      { c with current := p, writers := Function.update c.writers w .published } := by
    simp only [step, hw]
  have hself : Function.update c.writers w .published w = .published := Function.update_self ..
  have hother : ∀ w' ≠ w, Function.update c.writers w .published w' = c.writers w' :=
    fun w' hne => Function.update_of_ne hne ..
  -- now there is no writer at work
  have hnone : ∀ w' q, Function.update c.writers w .published w' ≠ .writing q := by
    intro w' q hw'
    by_cases heq : w' = w
    · subst heq
      cases hself.symm.trans hw'
    · rw [hother w' heq] at hw'
      exact heq (h.alone _ _ _ _ hw' hw)
  rw [hstep]
  refine ⟨fun w₁ _ p₁ _ h₁ => absurd h₁ (hnone w₁ p₁), fun w' q hw' => absurd hw' (hnone w' q),
    ⟨h.allocated w p hw, fun w' => hnone w' p⟩,
    fun r q hr => ⟨(h.taken r q hr).1, fun w' => hnone w' q⟩, ?_, ?_, ?_,
    fun w' q hw' => absurd hw' (hnone w' q)⟩
  · intro w'
    rw [publishers_publish, List.mem_append, h.publishers, List.mem_singleton]
    by_cases heq : w' = w
    · subst heq
      simp
    · simp [heq]
  · intro w' hw'
    rw [updatesOf_publish]
    by_cases heq : w' = w
    · subst heq
      cases hself.symm.trans hw'
    · exact h.unwritten w' ((hother w' heq).symm.trans hw')
  · rw [publishedUpdates_publish]
    exact h.written w p hw

theorem Coherent.take (r : Nat) :
    Coherent apply v (ops ++ [.take r]) (step copy apply c (.take r)) := by
  have hpublished : publishedUpdates (ops ++ [.take r]) = publishedUpdates ops :=
    publishedUpdates_congr (by simp) (by simp)
  refine ⟨h.alone, h.allocated, h.frozen, ?_, ?_, ?_, ?_, ?_⟩
  · show ∀ r' p, Function.update c.snapshots r (some c.current) r' = some p → Frozen c p
    rw [Function.forall_update_iff c.snapshots fun _ snapshot =>
      ∀ p, snapshot = some p → Frozen c p]
    refine ⟨fun p hp => ?_, fun r' _ => h.taken r'⟩
    rw [← Option.some.inj hp]
    exact h.frozen
  · intro w
    rw [publishers_take]
    exact h.publishers w
  · intro w hw
    rw [updatesOf_take]
    exact h.unwritten w hw
  · rw [hpublished]
    exact h.value
  · intro w p hw
    rw [hpublished, updatesOf_take]
    exact h.written w p hw

end

/-- **A run of the cell**, if copies are equal. -/
theorem coherent_after {v : V} (hcopy : ∀ us : List U, copy (us.foldl apply v) = us.foldl apply v)
    {ops : List (Op U)} (hops : (machine copy apply).Along Enabled (Cell.init v) ops) :
    Coherent apply v ops ((machine copy apply).after (Cell.init v) ops) := by
  refine Machine.history_along (Coherent apply v) (coherent_init v) ?_ hops
  intro ops op h henabled
  show Coherent apply v (ops ++ [op]) (step copy apply _ op)
  cases op with
  | fork w => exact h.fork hcopy henabled.1 henabled.2
  | update w u =>
    obtain ⟨p, hw⟩ := henabled
    exact h.update hw u
  | publish w =>
    obtain ⟨p, hw⟩ := henabled
    exact h.publish hw
  | take r => exact h.take r

/-- **The published value** has all updates of the writers that have published. -/
theorem published_eq {v : V} (hcopy : ∀ us : List U, copy (us.foldl apply v) = us.foldl apply v)
    {ops : List (Op U)} (hops : (machine copy apply).Along Enabled (Cell.init v) ops) :
    let c := (machine copy apply).after (Cell.init v) ops
    c.objects c.current = (publishedUpdates ops).foldl apply v :=
  (coherent_after hcopy hops).value

/-- A reader takes only one snapshot. -/
theorem snapshot_kept {c : Cell V} {r p : Nat} (hr : c.snapshots r = some p) {ops : List (Op U)}
    (hops : (machine copy apply).Along Enabled c ops) :
    ((machine copy apply).after c ops).snapshots r = some p := by
  refine Machine.inv_along (fun c' => c'.snapshots r = some p) ?_ hr hops
  intro c' op hr' henabled
  show (step copy apply c' op).snapshots r = some p
  cases op with
  | fork w => exact hr'
  | update w u =>
    unfold step
    dsimp only
    split <;> exact hr'
  | publish w =>
    unfold step
    dsimp only
    split <;> exact hr'
  | take r' =>
    have hne : r ≠ r' := by
      rintro rfl
      cases hr'.symm.trans henabled
    exact (Function.update_of_ne hne ..).trans hr'

/-- **What a reader has taken** is kept, and not changed any more. -/
theorem snapshot_fixed {v : V} (hcopy : ∀ us : List U, copy (us.foldl apply v) = us.foldl apply v)
    {ops more : List (Op U)} (hops : (machine copy apply).Along Enabled (Cell.init v) (ops ++ more))
    {r p : Nat} (hr : ((machine copy apply).after (Cell.init v) ops).snapshots r = some p) :
    ((machine copy apply).after (Cell.init v) (ops ++ more)).snapshots r = some p ∧
      ((machine copy apply).after (Cell.init v) (ops ++ more)).objects p =
        ((machine copy apply).after (Cell.init v) ops).objects p := by
  obtain ⟨hbefore, hmore⟩ := Machine.along_append.mp hops
  rw [Machine.after_append]
  exact ⟨snapshot_kept hr hmore, frozen_after ((coherent_after hcopy hbefore).taken r p hr) more⟩

end Acatl.Lib.CopyOnWrite

/-
Acatl.Lib.PubSub — a service that hands on what is published.

Clients subscribe to filters. A receiver stands for one client at a time, or
for none, and is given what is published on a topic that one of the filters of
this client fits. What a client has subscribed to stays when its receiver goes.

The state is what is needed to go on (`Service`); the same can be read off what
has happened so far:

  `attached_iff`     a receiver stands for the client it was attached to last.
  `subscribed_iff`   a client has the filters that were subscribed to for it
                     since it was forgotten last.
  `inbox_concat`     so what is given to whom follows from what has happened.
  `inbox_sublist`    nobody is given anything twice, or in another order.

Nothing here is about packets or trees.
-/
import Acatl.Lib.Machine
import Mathlib.Data.Set.Insert
import Mathlib.Logic.Function.Basic

namespace Acatl.Lib

/-! ## §1 Since -/

section

variable {I : Type}

/-- One of the inputs was of the first kind, which may depend on those before it,
and none since was of the second. -/
def Since (P : List I → I → Prop) (K : I → Prop) (is : List I) : Prop :=
  ∃ front i back, is = front ++ i :: back ∧ P front i ∧ ∀ j ∈ back, ¬ K j

theorem not_since_nil (P : List I → I → Prop) (K : I → Prop) : ¬ Since P K [] := by
  rintro ⟨front, i, back, h, -⟩
  cases front <;> cases h

/-- One more input. -/
theorem since_concat {P : List I → I → Prop} {K : I → Prop} {is : List I} {i : I} :
    Since P K (is ++ [i]) ↔ P is i ∨ (Since P K is ∧ ¬ K i) := by
  constructor
  · rintro ⟨front, j, back, h, hj, hback⟩
    rcases List.eq_nil_or_concat back with rfl | ⟨back, k, rfl⟩
    · obtain ⟨rfl, hij⟩ := List.append_inj' h rfl
      rw [List.singleton_inj.mp hij]
      exact .inl hj
    · have hsplit : is ++ [i] = (front ++ j :: back) ++ [k] := by simpa using h
      obtain ⟨rfl, hik⟩ := List.append_inj' hsplit rfl
      rw [List.singleton_inj.mp hik]
      exact .inr ⟨⟨front, j, back, rfl, hj, fun l hl => hback l (by simp [hl])⟩,
        hback k (by simp)⟩
  · rintro (hi | ⟨⟨front, j, back, rfl, hj, hback⟩, hi⟩)
    · exact ⟨is, i, [], rfl, hi, by simp⟩
    · refine ⟨front, j, back ++ [i], by simp, hj, ?_⟩
      intro l hl
      rcases List.mem_append.mp hl with hl | hl
      · exact hback l hl
      · rw [List.mem_singleton.mp hl]
        exact hi

end

namespace PubSub

variable {C F R T M : Type}

/-! ## §2 The service -/

/-- The filters of each client, the client of each receiver, and what each
receiver was given. -/
@[ext] structure Service (C F R M : Type) where
  subscriptions : C → Set F
  attached : R → Option C
  inbox : R → List M

inductive Op (C F R T M : Type) where
  | attach (r : R) (c : C)
  | detach (r : R)
  -- for the client that the receiver stands for
  | subscribe (r : R) (fs : Set F)
  | forget (c : C)
  | publish (t : T) (m : M)

def empty : Service C F R M := ⟨fun _ => ∅, fun _ => none, fun _ => []⟩

/-- The receiver is to be given what is published on the topic. -/
def Service.Wants (s : Service C F R M) (fits : F → T → Prop) (r : R) (t : T) : Prop :=
  ∃ c, s.attached r = some c ∧ ∃ f ∈ s.subscriptions c, fits f t

section

variable [DecidableEq C] [DecidableEq R] (fits : F → T → Prop)

open Classical in
noncomputable def step (s : Service C F R M) : Op C F R T M → Service C F R M
  | .attach r c => { s with attached := Function.update s.attached r (some c) }
  | .detach r => { s with attached := Function.update s.attached r none }
  | .subscribe r fs =>
    match s.attached r with
    | none => s
    | some c => { s with
        subscriptions := Function.update s.subscriptions c (s.subscriptions c ∪ fs) }
  | .forget c => { s with subscriptions := Function.update s.subscriptions c ∅ }
  | .publish t m =>
    { s with inbox := fun r => s.inbox r ++ if s.Wants fits r t then [m] else [] }

/-- The service under its operations. -/
noncomputable def machine : Machine (Service C F R M) (Op C F R T M) Unit :=
  fun s op => ((), step fits s op)

end

/-! ## §3 What has happened -/

/-- The receiver stands for somebody else after it. -/
def Op.Rebinds (r : R) : Op C F R T M → Prop
  | .attach r' _ | .detach r' => r' = r
  | _ => False

/-- The receiver was attached to the client last. -/
def AttachedTo (ops : List (Op C F R T M)) (r : R) (c : C) : Prop :=
  Since (fun _ op => op = .attach r c) (Op.Rebinds r) ops

/-- A receiver of the client has subscribed to the filter, and the client was
not forgotten since. -/
def SubscribedTo (ops : List (Op C F R T M)) (c : C) (f : F) : Prop :=
  Since (fun front op => ∃ r fs, op = .subscribe r fs ∧ f ∈ fs ∧ AttachedTo front r c)
    (· = .forget c) ops

/-- After what has happened, the receiver is to be given what is published on
the topic. -/
def Due (fits : F → T → Prop) (ops : List (Op C F R T M)) (r : R) (t : T) : Prop :=
  ∃ c, AttachedTo ops r c ∧ ∃ f, SubscribedTo ops c f ∧ fits f t

/-- What was published, in that order. -/
def published (ops : List (Op C F R T M)) : List M :=
  ops.filterMap fun
    | .publish _ m => some m
    | _ => none

section

variable [DecidableEq C] [DecidableEq R] {fits : F → T → Prop}

theorem after_concat (ops : List (Op C F R T M)) (op : Op C F R T M) :
    (machine fits).after empty (ops ++ [op]) = step fits ((machine fits).after empty ops) op := by
  rw [Machine.after_append]
  rfl

/-- **A receiver stands for the client it was attached to last.** -/
theorem attached_iff (ops : List (Op C F R T M)) (r : R) (c : C) :
    ((machine fits).after empty ops).attached r = some c ↔ AttachedTo ops r c := by
  induction ops using List.reverseRecOn with
  | nil => exact iff_of_false (by simp [empty]) (not_since_nil _ _)
  | append_singleton ops op ih =>
    rw [after_concat, AttachedTo, since_concat, ← AttachedTo, ← ih]
    generalize (machine fits).after empty ops = s
    cases op with
    | attach r' c' =>
      by_cases hr : r' = r
      · subst hr
        simp [step, Op.Rebinds]
      · simp [step, Op.Rebinds, hr, Ne.symm hr]
    | detach r' =>
      by_cases hr : r' = r
      · subst hr
        simp [step, Op.Rebinds]
      · simp [step, Op.Rebinds, hr, Ne.symm hr]
    | subscribe r' fs =>
      have hsame : (step fits s (.subscribe r' fs)).attached = s.attached := by
        unfold step
        dsimp only
        split <;> rfl
      simp [hsame, Op.Rebinds]
    | forget c' => simp [step, Op.Rebinds]
    | publish t m => simp [step, Op.Rebinds]

/-- **A client has the filters that were subscribed to for it since it was
forgotten last.** -/
theorem subscribed_iff (ops : List (Op C F R T M)) (c : C) (f : F) :
    f ∈ ((machine fits).after empty ops).subscriptions c ↔ SubscribedTo ops c f := by
  induction ops using List.reverseRecOn with
  | nil => exact iff_of_false (by simp [empty]) (not_since_nil _ _)
  | append_singleton ops op ih =>
    rw [after_concat, SubscribedTo, since_concat, ← SubscribedTo, ← ih]
    have hattached : ∀ r c, ((machine fits).after empty ops).attached r = some c ↔
        AttachedTo ops r c := attached_iff ops
    generalize (machine fits).after empty ops = s at hattached ⊢
    cases op with
    | attach r' c' => simp [step]
    | detach r' => simp [step]
    | subscribe r fs =>
      have hnow : (∃ r' fs', (Op.subscribe r fs : Op C F R T M) = .subscribe r' fs' ∧ f ∈ fs' ∧
          AttachedTo ops r' c) ↔ f ∈ fs ∧ s.attached r = some c := by
        rw [hattached]
        constructor
        · rintro ⟨r', fs', heq, hf, hc⟩
          cases heq
          exact ⟨hf, hc⟩
        · rintro ⟨hf, hc⟩
          exact ⟨r, fs, rfl, hf, hc⟩
      rw [hnow]
      cases hr : s.attached r with
      | none => simp [step, hr]
      | some c' =>
        by_cases hc : c' = c
        · subst hc
          simp [step, hr, or_comm]
        · simp [step, hr, hc, Ne.symm hc]
    | forget c' =>
      by_cases hc : c' = c
      · subst hc
        simp [step]
      · simp [step, hc, Ne.symm hc]
    | publish t m => simp [step]

/-- Whether a receiver is to be given something follows from what has happened. -/
theorem wants_iff_due (ops : List (Op C F R T M)) (r : R) (t : T) :
    ((machine fits).after empty ops).Wants fits r t ↔ Due fits ops r t := by
  unfold Service.Wants Due
  simp only [attached_iff, subscribed_iff]

/-- Nothing but a publication is given to anybody. -/
theorem inbox_concat_other (ops : List (Op C F R T M)) {op : Op C F R T M}
    (h : ∀ t m, op ≠ .publish t m) (r : R) :
    ((machine fits).after empty (ops ++ [op])).inbox r =
      ((machine fits).after empty ops).inbox r := by
  rw [after_concat]
  cases op with
  | attach | detach | forget => rfl
  | subscribe r' fs =>
    unfold step
    dsimp only
    split <;> rfl
  | publish t m => exact absurd rfl (h t m)

open Classical in
/-- **A publication is given to the receivers that it is due to**, once. -/
theorem inbox_concat (ops : List (Op C F R T M)) (t : T) (m : M) (r : R) :
    ((machine fits).after empty (ops ++ [.publish t m])).inbox r =
      ((machine fits).after empty ops).inbox r ++ if Due fits ops r t then [m] else [] := by
  rw [after_concat]
  simp only [step, wants_iff_due]

/-- **Nobody is given anything twice, or in another order.** -/
theorem inbox_sublist (ops : List (Op C F R T M)) (r : R) :
    (((machine fits).after empty ops).inbox r).Sublist (published ops) := by
  induction ops using List.reverseRecOn with
  | nil => exact List.Sublist.refl _
  | append_singleton ops op ih =>
    have hsplit : published (ops ++ [op]) = published ops ++ published [op] :=
      List.filterMap_append
    rw [hsplit]
    cases op with
    | publish t m =>
      rw [inbox_concat]
      refine ih.append ?_
      split
      · exact List.Sublist.refl _
      · exact List.nil_sublist _
    | attach | detach | subscribe | forget =>
      rw [inbox_concat_other ops (by simp)]
      exact ih.trans (List.sublist_append_left _ _)

end

end PubSub

end Acatl.Lib

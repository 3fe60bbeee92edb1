/-
Acatl.Lib.WorkQueue — a first-in-first-out queue, and those who take from it.

Something is put into the queue, one of the takers takes what is in front and
holds it until it is finished. A taker holds one thing at a time.

  `takes_append_waiting`   things are taken in the order in which they were put.
  `count_puts`             what was put is waiting, held or finished, as often
                           as it was put.

Nothing here is about threads or locks.
-/
import Acatl.Lib.Machine
import Mathlib.Data.Finset.Card
import Mathlib.Data.Fintype.Basic
import Mathlib.Logic.Function.Basic

namespace Acatl.Lib.WorkQueue

variable {W T : Type}

/-! ## §1 The queue -/

/-- What is waiting, and what each taker holds. -/
structure Queue (W T : Type) where
  waiting : List T
  held : W → Option T

inductive Op (W T : Type) where
  | put (t : T)
  | take (w : W)
  | finish (w : W)

inductive Event (T : Type) where
  | put (t : T)
  | taken (t : T)
  | finished (t : T)
  deriving DecidableEq

def empty : Queue W T := ⟨[], fun _ => none⟩

/-- A taker has its hands free, and there is something to take or to finish. -/
def Enabled (q : Queue W T) : Op W T → Prop
  | .put _ => True
  | .take w => q.held w = none ∧ q.waiting ≠ []
  | .finish w => q.held w ≠ none

section

variable [DecidableEq W]

def step (q : Queue W T) : Op W T → Option (Event T) × Queue W T
  | .put t => (some (.put t), { q with waiting := q.waiting ++ [t] })
  | .take w =>
    match q.waiting with
    | [] => (none, q)
    | t :: ts => (some (.taken t), ⟨ts, Function.update q.held w (some t)⟩)
  | .finish w =>
    match q.held w with
    | none => (none, q)
    | some t => (some (.finished t), { q with held := Function.update q.held w none })

/-- The queue under its operations. -/
def machine : Machine (Queue W T) (Op W T) (Option (Event T)) := step

end

/-! ## §2 What has happened -/

/-- What was put, in that order. -/
def puts (events : List (Event T)) : List T :=
  events.filterMap fun
    | .put t => some t
    | _ => none

/-- What was taken, in that order. -/
def takes (events : List (Event T)) : List T :=
  events.filterMap fun
    | .taken t => some t
    | _ => none

/-- What was finished, in that order. -/
def finishes (events : List (Event T)) : List T :=
  events.filterMap fun
    | .finished t => some t
    | _ => none

section

variable (events : List (Event T)) (t : T)

@[simp] theorem puts_put : puts (events ++ [.put t]) = puts events ++ [t] := by simp [puts]
@[simp] theorem puts_taken : puts (events ++ [.taken t]) = puts events := by simp [puts]
@[simp] theorem puts_finished : puts (events ++ [.finished t]) = puts events := by simp [puts]
@[simp] theorem takes_put : takes (events ++ [.put t]) = takes events := by simp [takes]
@[simp] theorem takes_taken : takes (events ++ [.taken t]) = takes events ++ [t] := by
  simp [takes]
@[simp] theorem takes_finished : takes (events ++ [.finished t]) = takes events := by
  simp [takes]
@[simp] theorem finishes_put : finishes (events ++ [.put t]) = finishes events := by
  simp [finishes]
@[simp] theorem finishes_taken : finishes (events ++ [.taken t]) = finishes events := by
  simp [finishes]
@[simp] theorem finishes_finished :
    finishes (events ++ [.finished t]) = finishes events ++ [t] := by
  simp [finishes]

theorem takes_append (before behind : List (Event T)) :
    takes (before ++ behind) = takes before ++ takes behind :=
  List.filterMap_append

end

/-! ## §3 Order and conservation -/

section

variable [Fintype W] [DecidableEq T]

/-- The takers that hold the thing. -/
def holders (q : Queue W T) (t : T) : Finset W := Finset.univ.filter fun w => q.held w = some t

/-- What is known about the queue after some events. -/
structure Kept (events : List (Event T)) (q : Queue W T) : Prop where
  order : takes events ++ q.waiting = puts events
  conserved : ∀ t, (puts events).count t =
    q.waiting.count t + (holders q t).card + (finishes events).count t

theorem kept_empty : Kept [] (empty : Queue W T) where
  order := rfl
  conserved t := by simp [puts, finishes, empty, holders]

variable [DecidableEq W]

theorem card_holders_take {q : Queue W T} {w : W} (hw : q.held w = none) (ts : List T) (t u : T) :
    (holders ⟨ts, Function.update q.held w (some t)⟩ u).card =
      (holders q u).card + if t = u then 1 else 0 := by
  by_cases htu : t = u
  · subst htu
    have hinsert : holders ⟨ts, Function.update q.held w (some t)⟩ t =
        insert w (holders q t) := by
      ext w'
      by_cases h : w' = w
      · simp [holders, h]
      · simp [holders, h]
    have hnot : w ∉ holders q t := by simp [holders, hw]
    rw [hinsert, Finset.card_insert_of_notMem hnot, if_pos rfl]
  · have hsame : holders ⟨ts, Function.update q.held w (some t)⟩ u = holders q u := by
      ext w'
      by_cases h : w' = w
      · simp [holders, h, hw, htu]
      · simp [holders, h]
    rw [hsame, if_neg htu, Nat.add_zero]

theorem card_holders_finish {q : Queue W T} {w : W} {t : T} (hw : q.held w = some t) (u : T) :
    (holders q u).card =
      (holders { q with held := Function.update q.held w none } u).card +
        if t = u then 1 else 0 := by
  have hnone : ({ q with held := Function.update q.held w none } : Queue W T).held w = none := by
    simp
  have hback := card_holders_take hnone q.waiting t u
  have hself : Function.update (Function.update q.held w none) w (some t) = q.held := by
    rw [Function.update_idem, ← hw, Function.update_eq_self]
  rw [hself] at hback
  exact hback

theorem Kept.step {events : List (Event T)} {q : Queue W T} (h : Kept events q) {op : Op W T}
    (hop : Enabled q op) : Kept (events ++ (step q op).1.toList) (step q op).2 := by
  cases op with
  | put t =>
    refine ⟨?_, ?_⟩
    · simp only [WorkQueue.step, Option.toList_some, takes_put, puts_put, ← List.append_assoc,
        h.order]
    · intro u
      have hu := h.conserved u
      simp only [WorkQueue.step, Option.toList_some, puts_put, finishes_put, List.count_append,
        hu]
      have hholders : holders { q with waiting := q.waiting ++ [t] } u = holders q u := rfl
      rw [hholders]
      omega
  | take w =>
    obtain ⟨hfree, hsome⟩ := hop
    cases hq : q.waiting with
    | nil => exact absurd hq hsome
    | cons t ts =>
      have horder := h.order
      rw [hq] at horder
      simp only [WorkQueue.step, hq, Option.toList_some]
      refine ⟨?_, ?_⟩
      · simp [← horder]
      · intro u
        have hu := h.conserved u
        rw [hq, List.count_cons] at hu
        have hcount : (if (t == u) = true then 1 else 0) = if t = u then 1 else 0 := by
          simp
        rw [hcount] at hu
        rw [puts_taken, finishes_taken, hu, card_holders_take hfree]
        dsimp only
        omega
  | finish w =>
    cases hw : q.held w with
    | none => exact absurd hw hop
    | some t =>
      simp only [WorkQueue.step, hw, Option.toList_some]
      refine ⟨by simpa using h.order, ?_⟩
      intro u
      have hu := h.conserved u
      rw [card_holders_finish hw u] at hu
      rw [puts_finished, finishes_finished, hu, List.count_append, List.count_singleton]
      have hcount : (if (t == u) = true then 1 else 0) = if t = u then 1 else 0 := by simp
      rw [hcount]
      dsimp only
      omega

/-- What has happened in a run. -/
def events (ops : List (Op W T)) : List (Event T) :=
  (machine.outputs (empty : Queue W T) ops).filterMap id

omit [Fintype W] [DecidableEq T] in
theorem events_append (ops more : List (Op W T)) : events (ops ++ more) =
    events ops ++ (machine.outputs (machine.after empty ops) more).filterMap id := by
  rw [events, Machine.outputs_append, List.filterMap_append]
  rfl

/-- The things that the operations put. -/
def putsOf (ops : List (Op W T)) : List T :=
  ops.filterMap fun
    | .put t => some t
    | _ => none

omit [Fintype W] [DecidableEq T] in
/-- Nothing keeps a thing from being put. -/
theorem puts_outputs (q : Queue W T) (ops : List (Op W T)) :
    puts ((machine.outputs q ops).filterMap id) = putsOf ops := by
  induction ops generalizing q with
  | nil => rfl
  | cons op ops ih =>
    rw [Machine.outputs_cons]
    cases op with
    | put t => exact congrArg (t :: ·) (ih _)
    | take w =>
      cases hq : q.waiting with
      | nil => simpa [machine, step, hq, putsOf] using ih q
      | cons t ts => simpa [machine, step, hq, putsOf, puts] using ih ⟨ts, _⟩
    | finish w =>
      cases hw : q.held w with
      | none => simpa [machine, step, hw, putsOf] using ih q
      | some t =>
        simpa [machine, step, hw, putsOf, puts] using ih { q with held := Function.update q.held w none }

theorem kept_after {ops : List (Op W T)} (hops : machine.Along Enabled empty ops) :
    Kept (events ops) (machine.after empty ops) := by
  refine Machine.history_along (fun ops q => Kept (events ops) q) kept_empty ?_ hops
  intro ops op h hop
  have hevents : events (ops ++ [op]) =
      events ops ++ (step (machine.after empty ops) op).1.toList := by
    rw [events_append]
    congr 1
  rw [hevents]
  exact h.step hop

/-- **Things are taken in the order in which they were put.** -/
theorem takes_append_waiting {ops : List (Op W T)} (hops : machine.Along Enabled empty ops) :
    takes (events ops) ++ (machine.after empty ops).waiting = puts (events ops) :=
  (kept_after hops).order

/-- **What was put is waiting, held or finished, each time once.** -/
theorem count_puts {ops : List (Op W T)} (hops : machine.Along Enabled empty ops) (t : T) :
    (puts (events ops)).count t =
      (machine.after empty ops).waiting.count t + (holders (machine.after empty ops) t).card +
        (finishes (events ops)).count t :=
  (kept_after hops).conserved t

end

end Acatl.Lib.WorkQueue

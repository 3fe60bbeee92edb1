/-
Acatl.Mqtt.TreePublication — `SubscriptionTreeManager` under threads that
write and threads that read, one step for each thing that a thread does.

A writer is the life of one `WritableTree`: `getWritableTree` locks the write
mutex and clones the published tree, `addFilter` writes to that clone, and the
destructor calls `setTree`, which finds the write mutex locked, publishes the
clone under the read mutex and unlocks both. A reader is one call of
`getCurrentSubscriptionTree`, and the matches on the tree that it returned.
Writers and readers are numbered, and there is no end of either.

The trees are objects on a heap (`trees`), and what is published is a pointer.
Nothing is ever deleted: a `std::shared_ptr` keeps what it points to. The
`WritableTree` that `getWritableTree` returns is not copied on the way.

`std::mutex::try_lock` is called by the thread that has the mutex locked. It
answers false there, as it does for any other thread.

  `nothing_lost`      no call of a writer is lost, no snapshot changes, and no
                      writer leaves the write mutex locked.
  `after_writerOps`   a writer that nothing interrupts is one step of the broker
                      in `Acatl.Mqtt.Processor`.
-/
import Acatl.Lib.CopyOnWrite
import Acatl.Mqtt.Processor
import Acatl.Mqtt.TreeCopies
import Acatl.Mqtt.TreeInsertion

namespace Acatl.Mqtt

open Acatl.Lib

variable {σ : Type}

/-! ## §1 Threads -/

/-- The address of a `SubscriptionTree`. -/
abbrev TreePtr := Nat

abbrev WriterId := Nat

abbrev ReaderId := Nat

/-- `std::mutex`. -/
structure Mutex where
  locked : Bool := false
  deriving DecidableEq

namespace Mutex

/-- `lock`, when it returns. -/
def lock (_ : Mutex) : Mutex := ⟨true⟩

/-- `try_lock`. -/
def tryLock (m : Mutex) : Bool × Mutex := if m.locked then (false, m) else (true, ⟨true⟩)

/-- `unlock`. -/
def unlock (_ : Mutex) : Mutex := ⟨false⟩

end Mutex

/-- How far a writer is; `tree` is the member `_tree` of its `WritableTree`. -/
inductive WriterStatus where
  | start
  -- in `getWritableTree`
  | locked
  | writing (tree : TreePtr)
  -- in `setTree`
  | tried (tree : TreePtr)
  | reading (tree : TreePtr)
  | assigned
  | unlocked
  | done
  -- `setTree` has returned false
  | refused
  deriving DecidableEq

/-- The write mutex was locked by this writer, and not unlocked. -/
def WriterStatus.Holds : WriterStatus → Prop
  | .locked | .writing _ | .tried _ | .reading _ | .assigned => True
  | _ => False

/-- How far a reader is; `tree` is what it has copied. -/
inductive ReaderStatus where
  | start
  | locked
  | copied (tree : TreePtr)
  | holding (tree : TreePtr)
  deriving DecidableEq

/-- The snapshot of a reader. -/
def ReaderStatus.tree? : ReaderStatus → Option TreePtr
  | .copied tree | .holding tree => some tree
  | _ => none

/-- `SubscriptionTreeManager`, the trees, and the threads. The addresses from
`next` on are free. -/
structure Publication (σ : Type) where
  writeMutex : Mutex := {}
  readMutex : Mutex := {}
  tree : TreePtr := 0
  trees : TreePtr → SubscriptionTree σ := fun _ => .new
  next : TreePtr := 1
  writers : WriterId → WriterStatus := fun _ => .start
  readers : ReaderId → ReaderStatus := fun _ => .start

/-- What a thread does next. -/
inductive ThreadOp (σ : Type) where
  -- `getWritableTree`
  | lockWrite (w : WriterId)
  | clone (w : WriterId)
  -- a call on the `WritableTree`
  | addFilter (w : WriterId) (call : FilterCall σ)
  -- `~WritableTree`, which is `setTree`
  | tryLockWrite (w : WriterId)
  | lockRead (w : WriterId)
  | assign (w : WriterId)
  | unlockWrite (w : WriterId)
  | unlockRead (w : WriterId)
  -- `getCurrentSubscriptionTree`
  | lockReader (r : ReaderId)
  | copy (r : ReaderId)
  | unlockReader (r : ReaderId)
  -- a call on the tree that was returned
  | matchTopic (r : ReaderId) (topic : TopicName) (sessions : Finset σ)

/-- What the call of a step returned to its thread. -/
inductive ThreadAnswer (σ : Type) where
  | waits
  | done
  | tried (locked : Bool)
  | added (result : Bool) (ec : ErrorCode)
  | matched (result : Bool) (sessions : Finset σ)

namespace Publication

/-- `SubscriptionTreeManager()`, before any thread. -/
def new : Publication σ := {}

/-- The writer goes on. -/
def setWriter (s : Publication σ) (w : WriterId) (status : WriterStatus) : Publication σ :=
  { s with writers := Function.update s.writers w status }

/-- The reader goes on. -/
def setReader (s : Publication σ) (r : ReaderId) (status : ReaderStatus) : Publication σ :=
  { s with readers := Function.update s.readers r status }

variable [DecidableEq σ]

/-- A step, unless the thread has to wait or is elsewhere. -/
def step (s : Publication σ) : ThreadOp σ → Option (ThreadAnswer σ × Publication σ)
  | .lockWrite w =>
    match s.writers w with
    | .start =>
      if s.writeMutex.locked then none
      else some (.done, { s with writeMutex := s.writeMutex.lock }.setWriter w .locked)
    | _ => none
  | .clone w =>
    match s.writers w with
    | .locked =>
      some (.done, { s with
        trees := Function.update s.trees s.next (s.trees s.tree).clone
        next := s.next + 1 }.setWriter w (.writing s.next))
    | _ => none
  | .addFilter w call =>
    match s.writers w with
    | .writing tree =>
      let (result, ec, written) := (s.trees tree).addFilter call.filter call.session call.ec
      some (.added result ec, { s with trees := Function.update s.trees tree written })
    | _ => none
  | .tryLockWrite w =>
    match s.writers w with
    | .writing tree =>
      match s.writeMutex.tryLock with
      | (true, m) => some (.tried true, { s with writeMutex := m }.setWriter w .refused)
      | (false, m) => some (.tried false, { s with writeMutex := m }.setWriter w (.tried tree))
    | _ => none
  | .lockRead w =>
    match s.writers w with
    | .tried tree =>
      if s.readMutex.locked then none
      else some (.done, { s with readMutex := s.readMutex.lock }.setWriter w (.reading tree))
    | _ => none
  | .assign w =>
    match s.writers w with
    | .reading tree => some (.done, { s with tree := tree }.setWriter w .assigned)
    | _ => none
  | .unlockWrite w =>
    match s.writers w with
    | .assigned =>
      some (.done, { s with writeMutex := s.writeMutex.unlock }.setWriter w .unlocked)
    | _ => none
  | .unlockRead w =>
    match s.writers w with
    | .unlocked => some (.done, { s with readMutex := s.readMutex.unlock }.setWriter w .done)
    | _ => none
  | .lockReader r =>
    match s.readers r with
    | .start =>
      if s.readMutex.locked then none
      else some (.done, { s with readMutex := s.readMutex.lock }.setReader r .locked)
    | _ => none
  | .copy r =>
    match s.readers r with
    | .locked => some (.done, s.setReader r (.copied s.tree))
    | _ => none
  | .unlockReader r =>
    match s.readers r with
    | .copied tree =>
      some (.done, { s with readMutex := s.readMutex.unlock }.setReader r (.holding tree))
    | _ => none
  | .matchTopic r topic sessions =>
    match s.readers r with
    | .holding tree =>
      let (result, sessions) := (s.trees tree).matchTopic topic sessions
      some (.matched result sessions, s)
    | _ => none

/-- The threads, step by step. A thread that has to wait does nothing. -/
def machine : Machine (Publication σ) (ThreadOp σ) (ThreadAnswer σ) :=
  fun s op => (s.step op).getD (.waits, s)

/-- The step can be made. -/
def Enabled (s : Publication σ) (op : ThreadOp σ) : Prop := (s.step op).isSome = true

instance (s : Publication σ) (op : ThreadOp σ) : Decidable (s.Enabled op) :=
  inferInstanceAs (Decidable (_ = _))

end Publication

/-! ## §2 What is expected -/

/-- The writers that have published, in that order. -/
def publishers (ops : List (ThreadOp σ)) : List WriterId :=
  ops.filterMap fun
    | .assign w => some w
    | _ => none

/-- The calls of `addFilter` by a writer. -/
def callsOf (ops : List (ThreadOp σ)) (w : WriterId) : List (FilterCall σ) :=
  ops.filterMap fun
    | .addFilter w' call => if w' = w then some call else none
    | _ => none

/-- The calls of the writers that have published, in the order of these. -/
def publishedCalls (ops : List (ThreadOp σ)) : List (FilterCall σ) :=
  (publishers ops).flatMap (callsOf ops)

section

variable [DecidableEq σ]

/-- The tree after a call. -/
def FilterCall.apply (tree : SubscriptionTree σ) (call : FilterCall σ) : SubscriptionTree σ :=
  (tree.addFilter call.filter call.session call.ec).2.2

namespace Publication

/-- What is expected of a run of the threads. -/
structure NothingLost (ops : List (ThreadOp σ)) : Prop where
  /-- The published tree answers as one that got the calls of all writers that
  have published. -/
  published : ∀ topic sessions,
    ((machine.after new ops).trees (machine.after new ops).tree).matchTopic topic sessions =
      ((publishedCalls ops).foldl FilterCall.apply .new).matchTopic topic sessions
  /-- A reader keeps its snapshot, which answers as it did before. -/
  snapshot : ∀ front, front <+: ops → ∀ r p,
    ((machine.after new front).readers r).tree? = some p →
    ((machine.after new ops).readers r).tree? = some p ∧ ∀ topic sessions,
      ((machine.after new ops).trees p).matchTopic topic sessions =
        ((machine.after new front).trees p).matchTopic topic sessions
  /-- The destructor of a writer leaves the write mutex unlocked. -/
  unlocked : ∀ front w, front ++ [.unlockWrite w] <+: ops →
    (machine.after new (front ++ [.unlockWrite w])).writeMutex.locked = false
  /-- It is locked only by a writer whose destructor has not unlocked it. -/
  held : (machine.after new ops).writeMutex.locked = true →
    ∃ w, ((machine.after new ops).writers w).Holds
  /-- No destructor ends without publishing. -/
  notRefused : ∀ w, (machine.after new ops).writers w ≠ .refused

end Publication

end

/-! ## §3 The write mutex -/

namespace Publication

/-- The write mutex is locked by the writer, or by none. -/
structure LockedBy (s : Publication σ) (holder : Option WriterId) : Prop where
  locked : s.writeMutex.locked = holder.isSome
  holds : ∀ w, (s.writers w).Holds ↔ holder = some w
  notRefused : ∀ w, s.writers w ≠ .refused

theorem lockedBy_new : LockedBy (new : Publication σ) none where
  locked := rfl
  holds w := by simp [new, WriterStatus.Holds]
  notRefused w := by simp [new]

section

variable {s s' : Publication σ} {holder : Option WriterId} (h : LockedBy s holder) {w : WriterId}
  {status : WriterStatus}

include h

/-- The holder of a locked mutex. -/
theorem LockedBy.locked_of (hw : (s.writers w).Holds) : s.writeMutex.locked = true := by
  rw [h.locked, (h.holds w).mp hw]
  rfl

theorem LockedBy.alone {w' : WriterId} (hw : (s.writers w).Holds) (hw' : (s.writers w').Holds) :
    w = w' :=
  Option.some.inj (((h.holds w).mp hw).symm.trans ((h.holds w').mp hw'))

/-- A writer goes on, and the mutex is locked by the others as it was. -/
theorem LockedBy.moves {holder' : Option WriterId}
    (hlocked : s'.writeMutex.locked = holder'.isSome)
    (hwriters : s'.writers = Function.update s.writers w status)
    (hself : status.Holds ↔ holder' = some w)
    (hother : ∀ w', w' ≠ w → (holder' = some w' ↔ holder = some w'))
    (hstatus : status ≠ .refused) : LockedBy s' holder' := by
  refine ⟨hlocked, ?_, ?_⟩
  · rw [hwriters, Function.forall_update_iff s.writers fun w' status => status.Holds ↔
      holder' = some w']
    exact ⟨hself, fun w' hne => (h.holds w').trans (hother w' hne).symm⟩
  · rw [hwriters, Function.forall_update_iff s.writers fun _ status => status ≠ .refused]
    exact ⟨hstatus, fun w' _ => h.notRefused w'⟩

/-- A writer goes on, and the mutex is as it was. -/
theorem LockedBy.goesOn (hmutex : s'.writeMutex = s.writeMutex)
    (hwriters : s'.writers = Function.update s.writers w status)
    (hsame : status.Holds ↔ (s.writers w).Holds) (hstatus : status ≠ .refused) :
    LockedBy s' holder :=
  h.moves (hmutex ▸ h.locked) hwriters (hsame.trans (h.holds w)) (fun _ _ => Iff.rfl) hstatus

end

variable [DecidableEq σ]

/-- What a step that can be made does. -/
inductive Stepped (s : Publication σ) : ThreadOp σ → Publication σ → Prop
  | lockWrite {w : WriterId} (hw : s.writers w = .start) (hfree : s.writeMutex.locked = false) :
      Stepped s (.lockWrite w) ({ s with writeMutex := ⟨true⟩ }.setWriter w .locked)
  | clone {w : WriterId} (hw : s.writers w = .locked) :
      Stepped s (.clone w) ({ s with
        trees := Function.update s.trees s.next (s.trees s.tree).clone
        next := s.next + 1 }.setWriter w (.writing s.next))
  | addFilter {w : WriterId} {tree : TreePtr} (hw : s.writers w = .writing tree)
      (call : FilterCall σ) :
      Stepped s (.addFilter w call) { s with
        trees := Function.update s.trees tree (call.apply (s.trees tree)) }
  | refused {w : WriterId} {tree : TreePtr} (hw : s.writers w = .writing tree)
      (hfree : s.writeMutex.locked = false) :
      Stepped s (.tryLockWrite w) ({ s with writeMutex := ⟨true⟩ }.setWriter w .refused)
  | tried {w : WriterId} {tree : TreePtr} (hw : s.writers w = .writing tree)
      (hlocked : s.writeMutex.locked = true) :
      Stepped s (.tryLockWrite w) (s.setWriter w (.tried tree))
  | lockRead {w : WriterId} {tree : TreePtr} (hw : s.writers w = .tried tree) :
      Stepped s (.lockRead w) ({ s with readMutex := ⟨true⟩ }.setWriter w (.reading tree))
  | assign {w : WriterId} {tree : TreePtr} (hw : s.writers w = .reading tree) :
      Stepped s (.assign w) ({ s with tree := tree }.setWriter w .assigned)
  | unlockWrite {w : WriterId} (hw : s.writers w = .assigned) :
      Stepped s (.unlockWrite w) ({ s with writeMutex := ⟨false⟩ }.setWriter w .unlocked)
  | unlockRead {w : WriterId} (hw : s.writers w = .unlocked) :
      Stepped s (.unlockRead w) ({ s with readMutex := ⟨false⟩ }.setWriter w .done)
  | lockReader {r : ReaderId} (hr : s.readers r = .start) :
      Stepped s (.lockReader r) ({ s with readMutex := ⟨true⟩ }.setReader r .locked)
  | copy {r : ReaderId} (hr : s.readers r = .locked) :
      Stepped s (.copy r) (s.setReader r (.copied s.tree))
  | unlockReader {r : ReaderId} {tree : TreePtr} (hr : s.readers r = .copied tree) :
      Stepped s (.unlockReader r) ({ s with readMutex := ⟨false⟩ }.setReader r (.holding tree))
  | matchTopic {r : ReaderId} {tree : TreePtr} (hr : s.readers r = .holding tree)
      (topic : TopicName) (sessions : Finset σ) : Stepped s (.matchTopic r topic sessions) s

theorem stepped_of_step {s s' : Publication σ} {op : ThreadOp σ} {answer : ThreadAnswer σ}
    (h : s.step op = some (answer, s')) : Stepped s op s' := by
  cases op with
  | lockWrite w =>
    simp only [step] at h
    split at h
    · rename_i hw
      split at h
      · cases h
      · rename_i hfree
        cases h
        exact .lockWrite hw (Bool.eq_false_iff.mpr hfree)
    · cases h
  | clone w =>
    simp only [step] at h
    split at h
    · rename_i hw
      cases h
      exact .clone hw
    · cases h
  | addFilter w call =>
    simp only [step] at h
    split at h
    · rename_i tree hw
      cases h
      exact .addFilter hw call
    · cases h
  | tryLockWrite w =>
    simp only [step, Mutex.tryLock] at h
    split at h
    · rename_i tree hw
      cases hlocked : s.writeMutex.locked with
      | true =>
        rw [hlocked] at h
        cases h
        exact .tried hw hlocked
      | false =>
        rw [hlocked] at h
        cases h
        exact .refused hw hlocked
    · cases h
  | lockRead w =>
    simp only [step] at h
    split at h
    · rename_i tree hw
      split at h
      · cases h
      · cases h
        exact .lockRead hw
    · cases h
  | assign w =>
    simp only [step] at h
    split at h
    · rename_i tree hw
      cases h
      exact .assign hw
    · cases h
  | unlockWrite w =>
    simp only [step] at h
    split at h
    · rename_i hw
      cases h
      exact .unlockWrite hw
    · cases h
  | unlockRead w =>
    simp only [step] at h
    split at h
    · rename_i hw
      cases h
      exact .unlockRead hw
    · cases h
  | lockReader r =>
    simp only [step] at h
    split at h
    · rename_i hr
      split at h
      · cases h
      · cases h
        exact .lockReader hr
    · cases h
  | copy r =>
    simp only [step] at h
    split at h
    · rename_i hr
      cases h
      exact .copy hr
    · cases h
  | unlockReader r =>
    simp only [step] at h
    split at h
    · rename_i tree hr
      cases h
      exact .unlockReader hr
    · cases h
  | matchTopic r topic sessions =>
    simp only [step] at h
    split at h
    · rename_i tree hr
      cases h
      exact .matchTopic hr topic sessions
    · cases h

theorem stepped {s : Publication σ} {op : ThreadOp σ} (h : s.Enabled op) :
    Stepped s op (machine s op).2 := by
  obtain ⟨⟨answer, s'⟩, hstep⟩ := Option.isSome_iff_exists.mp h
  rw [machine, hstep]
  exact stepped_of_step hstep

/-- **One writer holds the write mutex at a time**, and finds it locked in its
destructor. -/
theorem LockedBy.step {s s' : Publication σ} {holder : Option WriterId} (h : LockedBy s holder)
    {op : ThreadOp σ} (hop : Stepped s op s') : ∃ holder', LockedBy s' holder' := by
  cases hop with
  | @lockWrite w hw hfree =>
    have hnone : holder = none := by
      rw [h.locked] at hfree
      simpa using hfree
    refine ⟨some w, h.moves rfl rfl (by simp [WriterStatus.Holds]) (fun w' hne => ?_) (by simp)⟩
    simp [hnone, Ne.symm hne]
  | @refused w tree hw hfree =>
    have hlocked := h.locked_of (w := w) (by simp [WriterStatus.Holds, hw])
    rw [hfree] at hlocked
    cases hlocked
  | @unlockWrite w hw =>
    have hholder := (h.holds w).mp (by simp [WriterStatus.Holds, hw])
    refine ⟨none, h.moves rfl rfl (by simp [WriterStatus.Holds]) (fun w' hne => ?_) (by simp)⟩
    simp [hholder, Ne.symm hne]
  | clone hw | tried hw | lockRead hw | assign hw | unlockRead hw =>
    exact ⟨holder, h.goesOn rfl rfl (by simp [WriterStatus.Holds, hw]) (by simp)⟩
  | addFilter | lockReader | copy | unlockReader | matchTopic =>
    exact ⟨holder, h.locked, h.holds, h.notRefused⟩

/-- The mutex is held properly. -/
def Exclusive (s : Publication σ) : Prop := ∃ holder, LockedBy s holder

theorem exclusive_next {s : Publication σ} {op : ThreadOp σ} (h : s.Exclusive)
    (henabled : s.Enabled op) : (machine s op).2.Exclusive := by
  obtain ⟨holder, hlocked⟩ := h
  exact hlocked.step (stepped henabled)

theorem exclusive_after {ops : List (ThreadOp σ)} (hops : machine.Along Enabled new ops) :
    (machine.after new ops).Exclusive :=
  Machine.inv_along Exclusive (fun _ _ h henabled => exclusive_next h henabled)
    ⟨none, lockedBy_new⟩ hops

/-! ## §4 The trees -/

end Publication

open CopyOnWrite (Cell Op Stage)

/-- Where a writer is between its copy and its publication. -/
def WriterStatus.stage : WriterStatus → Stage
  | .start | .locked | .refused => .before
  | .writing tree | .tried tree | .reading tree => .writing tree
  | .assigned | .unlocked | .done => .published

theorem WriterStatus.holds_of_stage {status : WriterStatus} {tree : TreePtr}
    (h : status.stage = .writing tree) : status.Holds := by
  cases status with
  | writing | tried | reading => trivial
  | start | locked | refused | assigned | unlocked | done => cases h

/-- A step as one of the cell with the published tree. -/
def ThreadOp.view : ThreadOp σ → Option (Op (FilterCall σ))
  | .clone w => some (.fork w)
  | .addFilter w call => some (.update w call)
  | .assign w => some (.publish w)
  | .copy r => some (.take r)
  | _ => none

theorem publishers_view (ops : List (ThreadOp σ)) :
    CopyOnWrite.publishers (ops.filterMap ThreadOp.view) = publishers ops := by
  unfold CopyOnWrite.publishers publishers
  rw [List.filterMap_filterMap]
  congr 1
  funext op
  cases op <;> rfl

theorem updatesOf_view (ops : List (ThreadOp σ)) (w : WriterId) :
    CopyOnWrite.updatesOf (ops.filterMap ThreadOp.view) w = callsOf ops w := by
  unfold CopyOnWrite.updatesOf callsOf
  rw [List.filterMap_filterMap]
  congr 1
  funext op
  cases op <;> rfl

theorem publishedUpdates_view (ops : List (ThreadOp σ)) :
    CopyOnWrite.publishedUpdates (ops.filterMap ThreadOp.view) = publishedCalls ops := by
  unfold CopyOnWrite.publishedUpdates publishedCalls
  rw [publishers_view]
  congr 1
  funext w
  exact updatesOf_view ops w

namespace Publication

/-- The trees of the manager and of the threads. -/
def cell (s : Publication σ) : Cell (SubscriptionTree σ) where
  current := s.tree
  objects := s.trees
  next := s.next
  writers := WriterStatus.stage ∘ s.writers
  snapshots := ReaderStatus.tree? ∘ s.readers

/-- A thread goes on, and has the tree it had. -/
theorem cell_setWriter {s : Publication σ} {w : WriterId} {status : WriterStatus}
    (h : status.stage = (s.writers w).stage) : (s.setWriter w status).cell = s.cell := by
  have hwriters : WriterStatus.stage ∘ Function.update s.writers w status =
      WriterStatus.stage ∘ s.writers := by
    rw [Function.comp_update, h]
    exact Function.update_eq_self w (WriterStatus.stage ∘ s.writers)
  unfold cell setWriter
  rw [hwriters]

theorem cell_setReader {s : Publication σ} {r : ReaderId} {status : ReaderStatus}
    (h : status.tree? = (s.readers r).tree?) : (s.setReader r status).cell = s.cell := by
  have hreaders : ReaderStatus.tree? ∘ Function.update s.readers r status =
      ReaderStatus.tree? ∘ s.readers := by
    rw [Function.comp_update, h]
    exact Function.update_eq_self r (ReaderStatus.tree? ∘ s.readers)
  unfold cell setReader
  rw [hreaders]

variable [DecidableEq σ]

/-- The cell of trees, under `clone` and `addFilter`. -/
abbrev treeMachine : Machine (Cell (SubscriptionTree σ)) (Op (FilterCall σ)) Unit :=
  CopyOnWrite.machine SubscriptionTree.clone FilterCall.apply

/-- The other steps leave the trees alone. -/
theorem cell_idle {s s' : Publication σ} {holder : Option WriterId} (h : LockedBy s holder)
    {op : ThreadOp σ} (hop : Stepped s op s') (hview : op.view = none) : s'.cell = s.cell := by
  cases hop with
  | clone | addFilter | assign | copy => cases hview
  | @refused w tree hw hfree =>
    have hlocked := h.locked_of (w := w) (by simp [WriterStatus.Holds, hw])
    rw [hfree] at hlocked
    cases hlocked
  | lockWrite hw | tried hw | lockRead hw | unlockWrite hw | unlockRead hw =>
    refine (cell_setWriter ?_).trans rfl
    simp [WriterStatus.stage, hw]
  | lockReader hr | unlockReader hr =>
    refine (cell_setReader ?_).trans rfl
    simp [ReaderStatus.tree?, hr]
  | matchTopic => rfl

/-- **The manager is a cell**: only one writer has a copy at a time. -/
theorem cell_step {s s' : Publication σ} {holder : Option WriterId} (h : LockedBy s holder)
    {op : ThreadOp σ} (hop : Stepped s op s') {j : Op (FilterCall σ)} (hview : op.view = some j) :
    CopyOnWrite.Enabled s.cell j ∧ s'.cell = (treeMachine s.cell j).2 := by
  cases hop with
  | @clone w hw =>
    obtain rfl := Option.some.inj hview
    refine ⟨⟨by simp [cell, WriterStatus.stage, hw], fun w' p hw' => ?_⟩, ?_⟩
    · -- another writer with a copy would hold the mutex too
      have hself : (s.writers w).Holds := by simp [WriterStatus.Holds, hw]
      obtain rfl := h.alone hself (WriterStatus.holds_of_stage hw')
      simp [cell, WriterStatus.stage, hw] at hw'
    · unfold cell setWriter
      rw [Function.comp_update]
      rfl
  | @addFilter w tree hw call =>
    obtain rfl := Option.some.inj hview
    have hstage : s.cell.writers w = .writing tree := by simp [cell, WriterStatus.stage, hw]
    refine ⟨⟨tree, hstage⟩, ?_⟩
    simp only [treeMachine, CopyOnWrite.machine, CopyOnWrite.step, hstage]
    rfl
  | @assign w tree hw =>
    obtain rfl := Option.some.inj hview
    have hstage : s.cell.writers w = .writing tree := by simp [cell, WriterStatus.stage, hw]
    refine ⟨⟨tree, hstage⟩, ?_⟩
    simp only [treeMachine, CopyOnWrite.machine, CopyOnWrite.step, hstage]
    unfold cell setWriter
    rw [Function.comp_update]
    rfl
  | @copy r hr =>
    obtain rfl := Option.some.inj hview
    refine ⟨by simp [CopyOnWrite.Enabled, cell, ReaderStatus.tree?, hr], ?_⟩
    unfold cell setReader
    rw [Function.comp_update]
    rfl
  | lockWrite | refused | tried | lockRead | unlockWrite | unlockRead | lockReader | unlockReader
  | matchTopic => cases hview

/-- **Every run of the threads is one of the cell.** -/
theorem cell_after {ops : List (ThreadOp σ)} (hops : machine.Along Enabled new ops) :
    treeMachine.Along CopyOnWrite.Enabled (Cell.init .new) (ops.filterMap ThreadOp.view) ∧
      treeMachine.after (Cell.init .new) (ops.filterMap ThreadOp.view) =
        (machine.after new ops).cell := by
  refine Machine.refines_along cell ThreadOp.view Exclusive
    (fun s op h henabled => exclusive_next h henabled) ?_ ?_ ⟨none, lockedBy_new⟩ hops
  · intro s op h henabled hview
    obtain ⟨holder, hlocked⟩ := h
    exact cell_idle hlocked (stepped henabled) hview
  · intro s op j h henabled hview
    obtain ⟨holder, hlocked⟩ := h
    exact cell_step hlocked (stepped henabled) hview

/-- The trees that valid calls build are equal to their copies. -/
theorem clone_calls (calls : List (FilterCall σ)) :
    (calls.foldl FilterCall.apply .new).clone = calls.foldl FilterCall.apply .new := by
  have hbuilt : ∀ (calls : List (FilterCall σ)) (tree : SubscriptionTree σ), tree.Built →
      (calls.foldl FilterCall.apply tree).Built := by
    intro calls
    induction calls with
    | nil => exact fun tree h => h
    | cons call calls ih =>
      intro tree h
      exact ih _ (h.addFilter call.valid call.session call.ec)
  exact (hbuilt calls .new SubscriptionTree.built_new).clone_eq

/-! ## §5 Every run -/

/-- A destructor has unlocked the write mutex. -/
theorem unlocked_after {ops : List (ThreadOp σ)} {w : WriterId}
    (hops : machine.Along Enabled new (ops ++ [.unlockWrite w])) :
    (machine.after new (ops ++ [.unlockWrite w])).writeMutex.locked = false := by
  obtain ⟨-, henabled, -⟩ := Machine.along_append.mp hops
  rw [Machine.after_append]
  show (machine (machine.after new ops) (.unlockWrite w)).2.writeMutex.locked = false
  generalize machine.after new ops = s at henabled
  have hstep := stepped henabled
  generalize (machine s (.unlockWrite w)).2 = s' at hstep
  cases hstep with
  | unlockWrite hw => rfl

/-- **No call is lost, no snapshot changes, and the write mutex is left
unlocked**, however the steps of writers and readers follow each other. -/
theorem nothing_lost {ops : List (ThreadOp σ)} (hops : machine.Along Enabled new ops) :
    NothingLost ops where
  published := by
    obtain ⟨halong, hafter⟩ := cell_after hops
    have hvalue := CopyOnWrite.published_eq clone_calls halong
    rw [publishedUpdates_view] at hvalue
    intro topic sessions
    rw [← hvalue]
    show _ = SubscriptionTree.matchTopic ((treeMachine.after (Cell.init .new) _).objects
      (treeMachine.after (Cell.init .new) _).current) topic sessions
    rw [hafter]
    rfl
  snapshot := by
    intro front hfront r p hr
    obtain ⟨more, rfl⟩ := hfront
    obtain ⟨halong, hafter⟩ := cell_after hops
    obtain ⟨-, hbefore⟩ := cell_after (Machine.along_append.mp hops).1
    rw [List.filterMap_append] at halong hafter
    have hr : (treeMachine.after (Cell.init .new) (front.filterMap ThreadOp.view)).snapshots r =
        some p := by
      rw [hbefore]
      exact hr
    obtain ⟨hkept, hsame⟩ := CopyOnWrite.snapshot_fixed clone_calls halong hr
    rw [hafter] at hkept hsame
    rw [hbefore] at hsame
    refine ⟨hkept, fun topic sessions => ?_⟩
    exact congrArg (SubscriptionTree.matchTopic · topic sessions) hsame
  unlocked := by
    intro front w hfront
    exact unlocked_after (Machine.along_left hfront hops)
  held := by
    intro hlocked
    obtain ⟨holder, h⟩ := exclusive_after hops
    rw [h.locked] at hlocked
    obtain ⟨w, hw⟩ := Option.isSome_iff_exists.mp hlocked
    exact ⟨w, (h.holds w).mpr hw⟩
  notRefused := by
    obtain ⟨holder, h⟩ := exclusive_after hops
    exact h.notRefused

end Publication

/-- Two writers one after the other, and a reader between them. -/
def twoWriters : List (ThreadOp Nat) :=
  [.lockWrite 0, .clone 0, .addFilter 0 ⟨⟨[0x61], .atMostOnce⟩, by decide, 7, none⟩,
    .lockReader 0, .copy 0, .tryLockWrite 0, .unlockReader 0, .lockRead 0, .assign 0,
    .unlockWrite 0, .lockWrite 1, .unlockRead 0, .clone 1,
    .addFilter 1 ⟨⟨[0x62], .atMostOnce⟩, by decide, 8, none⟩, .matchTopic 0 ⟨[0x61]⟩ ∅,
    .tryLockWrite 1, .lockRead 1, .assign 1, .unlockWrite 1, .unlockRead 1]

theorem nothing_lost_two : Publication.NothingLost twoWriters :=
  Publication.nothing_lost (by decide)

/-! ## §6 A writer without company

`Acatl.Mqtt.Processor` has the writer of `Processor::addSubscriptions` as one
step. -/

namespace Publication

variable [DecidableEq σ]

theorem after_addFilters (calls : List (FilterCall σ)) (w : WriterId) (tree : TreePtr) :
    ∀ s : Publication σ, s.writers w = .writing tree →
    machine.Along Enabled s (calls.map (.addFilter w)) ∧
      machine.after s (calls.map (.addFilter w)) = { s with
        trees := Function.update s.trees tree (calls.foldl FilterCall.apply (s.trees tree)) } := by
  induction calls with
  | nil =>
    intro s _
    refine ⟨trivial, ?_⟩
    show s = { s with trees := Function.update s.trees tree (s.trees tree) }
    rw [Function.update_eq_self]
  | cons call calls ih =>
    intro s hw
    obtain ⟨answer, hstep⟩ : ∃ answer, s.step (.addFilter w call) = some (answer, { s with
        trees := Function.update s.trees tree (call.apply (s.trees tree)) }) := by
      simp only [step, hw]
      exact ⟨_, rfl⟩
    have hnext : (machine s (.addFilter w call)).2 = { s with
        trees := Function.update s.trees tree (call.apply (s.trees tree)) } := by
      rw [machine, hstep, Option.getD_some]
    obtain ⟨halong, hafter⟩ := ih { s with
      trees := Function.update s.trees tree (call.apply (s.trees tree)) } hw
    rw [List.map_cons, Machine.after_cons, Machine.Along, hnext, hafter]
    refine ⟨⟨?_, halong⟩, ?_⟩
    · rw [Enabled, hstep]
      rfl
    · simp [Function.update_idem]

/-- The steps of a writer. -/
def writerOps (w : WriterId) (calls : List (FilterCall σ)) : List (ThreadOp σ) :=
  [.lockWrite w, .clone w] ++ calls.map (.addFilter w) ++
    [.tryLockWrite w, .lockRead w, .assign w, .unlockWrite w, .unlockRead w]

/-- **A writer that nothing interrupts** publishes a copy with its calls. -/
theorem after_writerOps {s : Publication σ} {w : WriterId} (hw : s.writers w = .start)
    (hwrite : s.writeMutex = {}) (hread : s.readMutex = {}) (calls : List (FilterCall σ)) :
    machine.Along Enabled s (writerOps w calls) ∧
      machine.after s (writerOps w calls) = { s with
        tree := s.next
        trees := Function.update s.trees s.next
          (calls.foldl FilterCall.apply (s.trees s.tree).clone)
        next := s.next + 1
        writers := Function.update s.writers w .done } := by
  obtain ⟨writeMutex, readMutex, tree, trees, next, writers, readers⟩ := s
  dsimp only at hw hwrite hread
  subst hwrite hread
  -- the copy, the calls, and the destructor
  have hcopy : machine.Along Enabled ⟨{}, {}, tree, trees, next, writers, readers⟩
        [.lockWrite w, .clone w] ∧
      machine.after ⟨{}, {}, tree, trees, next, writers, readers⟩ [.lockWrite w, .clone w] =
        ⟨⟨true⟩, {}, tree, Function.update trees next (trees tree).clone, next + 1,
          Function.update writers w (.writing next), readers⟩ := by
    simp [Machine.Along, machine, Enabled, step, hw, setWriter, Mutex.lock]
  obtain ⟨hcalls, hwritten⟩ := after_addFilters calls w next
    ⟨⟨true⟩, {}, tree, Function.update trees next (trees tree).clone, next + 1,
      Function.update writers w (.writing next), readers⟩ (Function.update_self ..)
  have hbefore : machine.after ⟨{}, {}, tree, trees, next, writers, readers⟩
      ([.lockWrite w, .clone w] ++ calls.map (.addFilter w)) = {
        writeMutex := ⟨true⟩
        tree := tree
        trees := Function.update trees next (calls.foldl FilterCall.apply (trees tree).clone)
        next := next + 1
        writers := Function.update writers w (.writing next)
        readers := readers } := by
    rw [Machine.after_append, hcopy.2, hwritten]
    simp [Function.update_idem]
  rw [writerOps, Machine.along_append, Machine.along_append, Machine.after_append _ _ (_ ++ _),
    hcopy.2, hbefore]
  refine ⟨⟨⟨hcopy.1, hcalls⟩, ?_⟩, ?_⟩
  · simp [Machine.Along, machine, Enabled, step, setWriter, Mutex.lock, Mutex.tryLock,
      Mutex.unlock]
  · simp [machine, step, setWriter, Mutex.lock, Mutex.tryLock, Mutex.unlock]

end Publication

/-- The calls of `Processor::addSubscriptions`. -/
def Processor.filterCalls (proc : Processor) (fs : List {f : TopicFilter // f.Valid}) :
    List (FilterCall SessionPtr) :=
  fs.map fun f => ⟨f.1, f.2, proc.currentSession, none⟩

/-- **`Processor::addSubscriptions`** is such a writer. -/
theorem Processor.addSubscriptions_published (proc : Processor) (b : Broker)
    (fs : List {f : TopicFilter // f.Valid}) {s : Publication SessionPtr}
    (htree : b.trees.tree = s.trees s.tree) {w : WriterId} (hw : s.writers w = .start)
    (hwrite : s.writeMutex = {}) (hread : s.readMutex = {}) :
    let s' := Publication.machine.after s (Publication.writerOps w (proc.filterCalls fs))
    (proc.addSubscriptions b (fs.map Subtype.val)).trees.tree = s'.trees s'.tree := by
  intro s'
  have hafter := (Publication.after_writerOps hw hwrite hread (proc.filterCalls fs)).2
  have hpublished : s'.trees s'.tree =
      (proc.filterCalls fs).foldl FilterCall.apply (s.trees s.tree).clone := by
    show (Publication.machine.after s _).trees (Publication.machine.after s _).tree = _
    rw [hafter]
    exact Function.update_self ..
  rw [hpublished, ← htree, Processor.filterCalls, List.foldl_map]
  exact List.foldl_map

end Acatl.Mqtt

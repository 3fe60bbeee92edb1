/-
Acatl.ThreadPool — `thread_pool.h`: workers that take tasks from one queue,
calls of `enqueue`, and the destructor, one step for each thing that a thread
does with the mutex, the condition variable or the stop flag.

The queue is only touched by the thread that has the mutex locked, and the
worker reads it in two places (`testTasks`; `leave`, `take` and `skip`). The
stop flag is an atomic of its own and is stored without the mutex.

`_queueCondition.wait(lock, pred)` is a loop: while `pred` is false, release
the mutex and go to sleep in one step, and lock the mutex again when woken.
A worker may wake without being notified (`spuriousWake`). `notify_one` wakes
one of the sleeping workers, if there is one, and `notify_all` all of them;
neither has an effect on a worker that is not asleep yet.

Calls of `enqueue` are numbered, and a task has the number of its call. A task
may itself call `enqueue`: that is a call like any other one. A call that
throws does so after the mutex was unlocked.

  §1  the threads and their steps;
  §2  `stepped`: what a step finds and what it does;
  §3  `Guarded`: the mutex and the threads in its blocks.
-/
import Acatl.Lib.WorkQueue

namespace Acatl.ThreadPool

open Acatl.Lib

/-! ## §1 Threads -/

/-- The number of a call of `enqueue`, and of its task. -/
abbrev TaskId := Nat

/-- Those who lock the mutex: the workers and the callers of `enqueue`. -/
inductive Thread (n : Nat) where
  | worker (w : Fin n)
  | caller (c : TaskId)
  deriving DecidableEq

/-- How far a worker is in its loop. -/
inductive WorkerStatus where
  | locking
  -- in the predicate: before `_stop.load()`, and behind it when it was false
  | testing
  | unset
  -- the predicate is false
  | unready
  | asleep
  | woken
  -- `wait` has returned; behind the second `_stop.load()`
  | ready
  | checked (stop : Bool)
  -- at the end of the block, with the `task` of the source
  | took (task : Option TaskId)
  | running (task : TaskId)
  | leaving
  | returned
  deriving DecidableEq

/-- The worker has the mutex locked. -/
def WorkerStatus.Holds : WorkerStatus → Prop
  | .testing | .unset | .unready | .ready | .checked _ | .took _ | .leaving => True
  | _ => False

/-- The worker has left its loop. -/
def WorkerStatus.Left : WorkerStatus → Prop
  | .leaving | .returned => True
  | _ => False

/-- The task that the worker has. -/
def WorkerStatus.task? : WorkerStatus → Option TaskId
  | .took task => task
  | .running task => some task
  | _ => none

/-- A worker that sleeps is woken. -/
def WorkerStatus.wake : WorkerStatus → WorkerStatus
  | .asleep => .woken
  | status => status

/-- How far a call of `enqueue` is. -/
inductive CallStatus where
  | start
  | locked
  -- behind `_stop.load()`
  | accepted
  | refused
  | emplaced
  | unlocked
  | done
  | threw
  deriving DecidableEq

/-- The caller has the mutex locked. -/
def CallStatus.Holds : CallStatus → Prop
  | .locked | .accepted | .refused | .emplaced => True
  | _ => False

/-- The task was put into the queue. -/
def CallStatus.Queued : CallStatus → Prop
  | .emplaced | .unlocked | .done => True
  | _ => False

instance : DecidablePred CallStatus.Queued := fun status => by
  cases status <;> unfold CallStatus.Queued <;> infer_instance

/-- How far the destructor is. -/
inductive DestructorStatus where
  | start
  | stopped
  -- behind `notify_all`; so many workers were joined
  | joining (joined : Nat)
  deriving DecidableEq

/-- `Threadpool` with `n` workers, and the threads. -/
structure Pool (n : Nat) where
  tasks : List TaskId := []
  queueMutex : Option (Thread n) := none
  stop : Bool := false
  workers : Fin n → WorkerStatus := fun _ => .locking
  calls : TaskId → CallStatus := fun _ => .start
  destructor : DestructorStatus := .start

/-- What a thread does next. -/
inductive Op (n : Nat) where
  -- the loop of a worker
  | lock (w : Fin n)
  | loadStop (w : Fin n)
  | testTasks (w : Fin n)
  | sleep (w : Fin n)
  | spuriousWake (w : Fin n)
  | checkStop (w : Fin n)
  | leave (w : Fin n)
  | take (w : Fin n)
  | skip (w : Fin n)
  | unlock (w : Fin n)
  | run (w : Fin n)
  -- `enqueue`
  | lockCall (c : TaskId)
  | loadStopCall (c : TaskId)
  | emplace (c : TaskId)
  | unlockCall (c : TaskId)
  | notifyOne (c : TaskId) (w : Option (Fin n))
  -- `~Threadpool`
  | storeStop
  | notifyAll
  | join
  deriving DecidableEq

/-- What a step does to a task, if anything. -/
abbrev Answer := Option (WorkQueue.Event TaskId)

variable {n : Nat}

namespace Pool

/-- `Threadpool(n)`, with the workers started. -/
def new : Pool n := {}

def setWorker (s : Pool n) (w : Fin n) (status : WorkerStatus) : Pool n :=
  { s with workers := Function.update s.workers w status }

def setCall (s : Pool n) (c : TaskId) (status : CallStatus) : Pool n :=
  { s with calls := Function.update s.calls c status }

section

variable (s : Pool n) (w v : Fin n) (c d : TaskId) (status : WorkerStatus) (status' : CallStatus)

@[simp] theorem tasks_setWorker : (s.setWorker w status).tasks = s.tasks := rfl
@[simp] theorem stop_setWorker : (s.setWorker w status).stop = s.stop := rfl
@[simp] theorem calls_setWorker : (s.setWorker w status).calls = s.calls := rfl
@[simp] theorem destructor_setWorker : (s.setWorker w status).destructor = s.destructor := rfl
@[simp] theorem tasks_setCall : (s.setCall c status').tasks = s.tasks := rfl
@[simp] theorem stop_setCall : (s.setCall c status').stop = s.stop := rfl
@[simp] theorem workers_setCall : (s.setCall c status').workers = s.workers := rfl
@[simp] theorem destructor_setCall : (s.setCall c status').destructor = s.destructor := rfl

theorem workers_setWorker :
    (s.setWorker w status).workers v = if v = w then status else s.workers v :=
  Function.update_apply ..

theorem calls_setCall : (s.setCall c status').calls d = if d = c then status' else s.calls d :=
  Function.update_apply ..

end

/-- A step, unless the thread has to wait or is elsewhere. -/
def step (s : Pool n) : Op n → Option (Answer × Pool n)
  | .lock w =>
    match s.workers w with
    | .locking | .woken =>
      if s.queueMutex = none then
        some (none, { s with queueMutex := some (.worker w) }.setWorker w .testing)
      else none
    | _ => none
  -- `_stop.load() || !_tasks.empty()`
  | .loadStop w =>
    match s.workers w with
    | .testing => some (none, s.setWorker w (if s.stop then .ready else .unset))
    | _ => none
  | .testTasks w =>
    match s.workers w with
    | .unset => some (none, s.setWorker w (if s.tasks = [] then .unready else .ready))
    | _ => none
  | .sleep w =>
    match s.workers w with
    | .unready => some (none, { s with queueMutex := none }.setWorker w .asleep)
    | _ => none
  | .spuriousWake w =>
    match s.workers w with
    | .asleep => some (none, s.setWorker w .woken)
    | _ => none
  -- `if(_stop.load() && _tasks.empty()) return;`
  | .checkStop w =>
    match s.workers w with
    | .ready => some (none, s.setWorker w (.checked s.stop))
    | _ => none
  | .leave w =>
    match s.workers w, s.tasks with
    | .checked true, [] => some (none, s.setWorker w .leaving)
    | _, _ => none
  -- `if(!_tasks.empty())`
  | .take w =>
    match s.workers w, s.tasks with
    | .checked _, task :: rest =>
      some (some (.taken task), { s with tasks := rest }.setWorker w (.took (some task)))
    | _, _ => none
  | .skip w =>
    match s.workers w, s.tasks with
    | .checked false, [] => some (none, s.setWorker w (.took none))
    | _, _ => none
  | .unlock w =>
    match s.workers w with
    | .took (some task) => some (none, { s with queueMutex := none }.setWorker w (.running task))
    | .took none => some (none, { s with queueMutex := none }.setWorker w .locking)
    | .leaving => some (none, { s with queueMutex := none }.setWorker w .returned)
    | _ => none
  | .run w =>
    match s.workers w with
    | .running task => some (some (.finished task), s.setWorker w .locking)
    | _ => none
  | .lockCall c =>
    match s.calls c with
    | .start =>
      if s.queueMutex = none then
        some (none, { s with queueMutex := some (.caller c) }.setCall c .locked)
      else none
    | _ => none
  | .loadStopCall c =>
    match s.calls c with
    | .locked => some (none, s.setCall c (if s.stop then .refused else .accepted))
    | _ => none
  | .emplace c =>
    match s.calls c with
    | .accepted => some (some (.put c), { s with tasks := s.tasks ++ [c] }.setCall c .emplaced)
    | _ => none
  | .unlockCall c =>
    match s.calls c with
    | .emplaced => some (none, { s with queueMutex := none }.setCall c .unlocked)
    | .refused => some (none, { s with queueMutex := none }.setCall c .threw)
    | _ => none
  | .notifyOne c (some w) =>
    match s.calls c, s.workers w with
    | .unlocked, .asleep => some (none, (s.setWorker w .woken).setCall c .done)
    | _, _ => none
  | .notifyOne c none =>
    match s.calls c with
    | .unlocked => if ∀ w, s.workers w ≠ .asleep then some (none, s.setCall c .done) else none
    | _ => none
  | .storeStop =>
    match s.destructor with
    | .start => some (none, { s with stop := true, destructor := .stopped })
    | _ => none
  | .notifyAll =>
    match s.destructor with
    | .stopped =>
      some (none, { s with workers := fun w => (s.workers w).wake, destructor := .joining 0 })
    | _ => none
  | .join =>
    match s.destructor with
    | .joining joined =>
      if h : joined < n then
        if s.workers ⟨joined, h⟩ = .returned then
          some (none, { s with destructor := .joining (joined + 1) })
        else none
      else none
    | _ => none

/-- The threads, step by step. A thread that has to wait does nothing. -/
def machine : Machine (Pool n) (Op n) Answer := fun s op => (s.step op).getD (none, s)

/-- The step can be made. -/
def Enabled (s : Pool n) (op : Op n) : Prop := (s.step op).isSome = true

instance (s : Pool n) (op : Op n) : Decidable (s.Enabled op) :=
  inferInstanceAs (Decidable (_ = _))

/-! ## §2 What a step does -/

/-- The step that an `Op` stands for, with what it finds. -/
inductive Stepped (s : Pool n) : Op n → Answer → Pool n → Prop
  | lock {w : Fin n} (hw : s.workers w = .locking ∨ s.workers w = .woken)
      (hfree : s.queueMutex = none) :
      Stepped s (.lock w) none ({ s with queueMutex := some (.worker w) }.setWorker w .testing)
  | loadStop {w : Fin n} (hw : s.workers w = .testing) :
      Stepped s (.loadStop w) none (s.setWorker w (if s.stop then .ready else .unset))
  | testTasks {w : Fin n} (hw : s.workers w = .unset) :
      Stepped s (.testTasks w) none (s.setWorker w (if s.tasks = [] then .unready else .ready))
  | sleep {w : Fin n} (hw : s.workers w = .unready) :
      Stepped s (.sleep w) none ({ s with queueMutex := none }.setWorker w .asleep)
  | spuriousWake {w : Fin n} (hw : s.workers w = .asleep) :
      Stepped s (.spuriousWake w) none (s.setWorker w .woken)
  | checkStop {w : Fin n} (hw : s.workers w = .ready) :
      Stepped s (.checkStop w) none (s.setWorker w (.checked s.stop))
  | leave {w : Fin n} (hw : s.workers w = .checked true) (hempty : s.tasks = []) :
      Stepped s (.leave w) none (s.setWorker w .leaving)
  | take {w : Fin n} {stop : Bool} {task : TaskId} {rest : List TaskId}
      (hw : s.workers w = .checked stop) (htasks : s.tasks = task :: rest) :
      Stepped s (.take w) (some (.taken task))
        ({ s with tasks := rest }.setWorker w (.took (some task)))
  | skip {w : Fin n} (hw : s.workers w = .checked false) (hempty : s.tasks = []) :
      Stepped s (.skip w) none (s.setWorker w (.took none))
  | unlock {w : Fin n} {status : WorkerStatus} (hheld : (s.workers w).Holds)
      (hfree : ¬ status.Holds) (htask : status.task? = (s.workers w).task?)
      (hstatus : status = .returned ∧ s.workers w = .leaving ∨
        status = .locking ∨ ∃ task, status = .running task) :
      Stepped s (.unlock w) none ({ s with queueMutex := none }.setWorker w status)
  | run {w : Fin n} {task : TaskId} (hw : s.workers w = .running task) :
      Stepped s (.run w) (some (.finished task)) (s.setWorker w .locking)
  | lockCall {c : TaskId} (hc : s.calls c = .start) (hfree : s.queueMutex = none) :
      Stepped s (.lockCall c) none ({ s with queueMutex := some (.caller c) }.setCall c .locked)
  | loadStopCall {c : TaskId} (hc : s.calls c = .locked) :
      Stepped s (.loadStopCall c) none (s.setCall c (if s.stop then .refused else .accepted))
  | emplace {c : TaskId} (hc : s.calls c = .accepted) :
      Stepped s (.emplace c) (some (.put c))
        ({ s with tasks := s.tasks ++ [c] }.setCall c .emplaced)
  | unlockCall {c : TaskId} {status : CallStatus} (hheld : (s.calls c).Holds)
      (hfree : ¬ status.Holds) (hqueued : status.Queued ↔ (s.calls c).Queued) :
      Stepped s (.unlockCall c) none ({ s with queueMutex := none }.setCall c status)
  | notifySome {c : TaskId} {w : Fin n} (hc : s.calls c = .unlocked) (hw : s.workers w = .asleep) :
      Stepped s (.notifyOne c (some w)) none ((s.setWorker w .woken).setCall c .done)
  | notifyNone {c : TaskId} (hc : s.calls c = .unlocked) (hw : ∀ w, s.workers w ≠ .asleep) :
      Stepped s (.notifyOne c none) none (s.setCall c .done)
  | storeStop (hd : s.destructor = .start) :
      Stepped s .storeStop none { s with stop := true, destructor := .stopped }
  | notifyAll (hd : s.destructor = .stopped) :
      Stepped s .notifyAll none
        { s with workers := fun w => (s.workers w).wake, destructor := .joining 0 }
  | join {joined : Nat} (hd : s.destructor = .joining joined) :
      Stepped s .join none { s with destructor := .joining (joined + 1) }

theorem stepped_of_step {s s' : Pool n} {op : Op n} {answer : Answer}
    (h : s.step op = some (answer, s')) : Stepped s op answer s' := by
  cases op with
  | lock w =>
    simp only [step] at h
    split at h
    · rename_i hw
      split at h
      · rename_i hfree
        cases h
        exact .lock (.inl hw) hfree
      · cases h
    · rename_i hw
      split at h
      · rename_i hfree
        cases h
        exact .lock (.inr hw) hfree
      · cases h
    · cases h
  | loadStop w =>
    simp only [step] at h
    split at h
    · rename_i hw
      cases h
      exact .loadStop hw
    · cases h
  | testTasks w =>
    simp only [step] at h
    split at h
    · rename_i hw
      cases h
      exact .testTasks hw
    · cases h
  | sleep w =>
    simp only [step] at h
    split at h
    · rename_i hw
      cases h
      exact .sleep hw
    · cases h
  | spuriousWake w =>
    simp only [step] at h
    split at h
    · rename_i hw
      cases h
      exact .spuriousWake hw
    · cases h
  | checkStop w =>
    simp only [step] at h
    split at h
    · rename_i hw
      cases h
      exact .checkStop hw
    · cases h
  | leave w =>
    simp only [step] at h
    split at h
    · rename_i hw hempty
      cases h
      exact .leave hw hempty
    · cases h
  | take w =>
    simp only [step] at h
    split at h
    · rename_i hw htasks
      cases h
      exact .take hw htasks
    · cases h
  | skip w =>
    simp only [step] at h
    split at h
    · rename_i hw hempty
      cases h
      exact .skip hw hempty
    · cases h
  | unlock w =>
    simp only [step] at h
    split at h
    · rename_i task hw
      cases h
      exact .unlock (by simp [hw, WorkerStatus.Holds]) (by simp [WorkerStatus.Holds])
        (by simp [hw, WorkerStatus.task?]) (.inr (.inr ⟨task, rfl⟩))
    · rename_i hw
      cases h
      exact .unlock (by simp [hw, WorkerStatus.Holds]) (by simp [WorkerStatus.Holds])
        (by simp [hw, WorkerStatus.task?]) (.inr (.inl rfl))
    · rename_i hw
      cases h
      exact .unlock (by simp [hw, WorkerStatus.Holds]) (by simp [WorkerStatus.Holds])
        (by simp [hw, WorkerStatus.task?]) (.inl ⟨rfl, hw⟩)
    · cases h
  | run w =>
    simp only [step] at h
    split at h
    · rename_i task hw
      cases h
      exact .run hw
    · cases h
  | lockCall c =>
    simp only [step] at h
    split at h
    · rename_i hc
      split at h
      · rename_i hfree
        cases h
        exact .lockCall hc hfree
      · cases h
    · cases h
  | loadStopCall c =>
    simp only [step] at h
    split at h
    · rename_i hc
      cases h
      exact .loadStopCall hc
    · cases h
  | emplace c =>
    simp only [step] at h
    split at h
    · rename_i hc
      cases h
      exact .emplace hc
    · cases h
  | unlockCall c =>
    simp only [step] at h
    split at h
    · rename_i hc
      cases h
      exact .unlockCall (by simp [hc, CallStatus.Holds]) (by simp [CallStatus.Holds])
        (by simp [hc, CallStatus.Queued])
    · rename_i hc
      cases h
      exact .unlockCall (by simp [hc, CallStatus.Holds]) (by simp [CallStatus.Holds])
        (by simp [hc, CallStatus.Queued])
    · cases h
  | notifyOne c w =>
    cases w with
    | some w =>
      simp only [step] at h
      split at h
      · rename_i hc hw
        cases h
        exact .notifySome hc hw
      · cases h
    | none =>
      simp only [step] at h
      split at h
      · rename_i hc
        split at h
        · rename_i hw
          cases h
          exact .notifyNone hc hw
        · cases h
      · cases h
  | storeStop =>
    simp only [step] at h
    split at h
    · rename_i hd
      cases h
      exact .storeStop hd
    · cases h
  | notifyAll =>
    simp only [step] at h
    split at h
    · rename_i hd
      cases h
      exact .notifyAll hd
    · cases h
  | join =>
    simp only [step] at h
    split at h
    · rename_i joined hd
      split at h
      · split at h
        · cases h
          exact .join hd
        · cases h
      · cases h
    · cases h

/-- A step that can be made is the one its `Op` stands for. -/
theorem stepped {s : Pool n} {op : Op n} (hop : s.Enabled op) :
    Stepped s op (machine s op).1 (machine s op).2 := by
  obtain ⟨⟨answer, s'⟩, h⟩ := Option.isSome_iff_exists.mp hop
  have hmachine : machine s op = (answer, s') := by rw [machine, h, Option.getD_some]
  rw [hmachine]
  exact stepped_of_step h

/-! ## §3 The mutex -/

/-- The thread is in a block that locks the mutex. -/
def Holds (s : Pool n) : Thread n → Prop
  | .worker w => (s.workers w).Holds
  | .caller c => (s.calls c).Holds

/-- The mutex was locked by the thread that is in such a block. -/
def Guarded (s : Pool n) : Prop := ∀ t, s.Holds t ↔ s.queueMutex = some t

section

variable {s s' : Pool n}

theorem Guarded.alone (h : s.Guarded) {t u : Thread n} (ht : s.Holds t) (hu : s.Holds u) :
    t = u :=
  Option.some.inj (((h t).mp ht).symm.trans ((h u).mp hu))

/-- No one locks or unlocks the mutex. -/
theorem Guarded.keeps (h : s.Guarded) (hmutex : s'.queueMutex = s.queueMutex)
    (hheld : ∀ t, s'.Holds t ↔ s.Holds t) : s'.Guarded := by
  intro t
  rw [hheld, hmutex]
  exact h t

/-- A thread locks the mutex. -/
theorem Guarded.locks (h : s.Guarded) {t : Thread n} (hfree : s.queueMutex = none)
    (hmutex : s'.queueMutex = some t) (ht : s'.Holds t) (hothers : ∀ u, u ≠ t → s'.Holds u →
      s.Holds u) : s'.Guarded := by
  intro u
  rw [hmutex, Option.some.injEq]
  constructor
  · intro hu
    by_contra hne
    have hheld := (h u).mp (hothers u (Ne.symm hne) hu)
    rw [hfree] at hheld
    cases hheld
  · intro hu
    exact hu ▸ ht

/-- The thread that has the mutex locked unlocks it. -/
theorem Guarded.unlocks (h : s.Guarded) {t : Thread n} (ht : s.Holds t)
    (hmutex : s'.queueMutex = none) (ht' : ¬ s'.Holds t) (hothers : ∀ u, u ≠ t → s'.Holds u →
      s.Holds u) : s'.Guarded := by
  intro u
  rw [hmutex]
  refine ⟨fun hu => ?_, fun hu => by cases hu⟩
  by_cases hut : u = t
  · subst hut
    exact absurd hu ht'
  · exact absurd (h.alone (hothers u hut hu) ht) hut

theorem holds_setWorker (w : Fin n) (status : WorkerStatus) (t : Thread n) :
    (s.setWorker w status).Holds t ↔ if t = .worker w then status.Holds else s.Holds t := by
  cases t with
  | worker v =>
    by_cases h : v = w
    · simp [Holds, setWorker, h]
    · simp [Holds, setWorker, h]
  | caller c => simp [Holds, setWorker]

theorem holds_setCall (c : TaskId) (status : CallStatus) (t : Thread n) :
    (s.setCall c status).Holds t ↔ if t = .caller c then status.Holds else s.Holds t := by
  cases t with
  | worker w => simp [Holds, setCall]
  | caller d =>
    by_cases h : d = c
    · simp [Holds, setCall, h]
    · simp [Holds, setCall, h]

/-- A worker goes on, in its block or outside of it. -/
theorem Guarded.setWorker (h : s.Guarded) {w : Fin n} {status : WorkerStatus}
    (hstatus : status.Holds ↔ (s.workers w).Holds) : (s.setWorker w status).Guarded := by
  refine h.keeps rfl ?_
  intro t
  rw [holds_setWorker]
  split
  · rename_i ht
    rw [ht, hstatus, Holds]
  · exact Iff.rfl

theorem Guarded.setCall (h : s.Guarded) {c : TaskId} {status : CallStatus}
    (hstatus : status.Holds ↔ (s.calls c).Holds) : (s.setCall c status).Guarded := by
  refine h.keeps rfl ?_
  intro t
  rw [holds_setCall]
  split
  · rename_i ht
    rw [ht, hstatus, Holds]
  · exact Iff.rfl

end

/-- **Every step keeps the mutex with those who are in a block of it.** -/
theorem Guarded.step {s s' : Pool n} {op : Op n} {answer : Answer} (h : s.Guarded)
    (hop : Stepped s op answer s') : s'.Guarded := by
  cases hop with
  | lock hw hfree =>
    refine h.locks hfree rfl (by simp [holds_setWorker, WorkerStatus.Holds]) ?_
    intro u hu hheld
    rwa [holds_setWorker, if_neg hu] at hheld
  | loadStop hw => exact h.setWorker (by split <;> simp [hw, WorkerStatus.Holds])
  | testTasks hw => exact h.setWorker (by split <;> simp [hw, WorkerStatus.Holds])
  | @sleep w hw =>
    refine h.unlocks (t := .worker w) (by simp [Holds, hw, WorkerStatus.Holds]) rfl
      (by simp [holds_setWorker, WorkerStatus.Holds]) ?_
    intro u hu hheld
    rwa [holds_setWorker, if_neg hu] at hheld
  | spuriousWake hw => exact h.setWorker (by simp [hw, WorkerStatus.Holds])
  | checkStop hw => exact h.setWorker (by simp [hw, WorkerStatus.Holds])
  | leave hw _ => exact h.setWorker (by simp [hw, WorkerStatus.Holds])
  | take hw _ =>
    refine Guarded.setWorker (s := { s with tasks := _ }) h ?_
    simp [hw, WorkerStatus.Holds]
  | skip hw _ => exact h.setWorker (by simp [hw, WorkerStatus.Holds])
  | @unlock w status hheld hfree _ _ =>
    refine h.unlocks (t := .worker w) hheld rfl (by simpa [holds_setWorker] using hfree) ?_
    intro u hu hheld
    rwa [holds_setWorker, if_neg hu] at hheld
  | run hw => exact h.setWorker (by simp [hw, WorkerStatus.Holds])
  | lockCall hc hfree =>
    refine h.locks hfree rfl (by simp [holds_setCall, CallStatus.Holds]) ?_
    intro u hu hheld
    rwa [holds_setCall, if_neg hu] at hheld
  | loadStopCall hc => exact h.setCall (by split <;> simp [hc, CallStatus.Holds])
  | emplace hc =>
    refine Guarded.setCall (s := { s with tasks := _ }) h ?_
    simp [hc, CallStatus.Holds]
  | @unlockCall c status hheld hfree _ =>
    refine h.unlocks (t := .caller c) hheld rfl (by simpa [holds_setCall] using hfree) ?_
    intro u hu hheld
    rwa [holds_setCall, if_neg hu] at hheld
  | @notifySome c w hc hw =>
    have hwoken : (s.setWorker w .woken).Guarded :=
      h.setWorker (by simp [hw, WorkerStatus.Holds])
    exact hwoken.setCall (by simp [hc, CallStatus.Holds])
  | notifyNone hc _ => exact h.setCall (by simp [hc, CallStatus.Holds])
  | storeStop _ => exact h.keeps rfl fun _ => Iff.rfl
  | notifyAll _ =>
    refine h.keeps rfl ?_
    intro t
    cases t with
    | worker w => cases hw : s.workers w <;> simp [Holds, WorkerStatus.wake, WorkerStatus.Holds, hw]
    | caller c => exact Iff.rfl
  | join _ => exact h.keeps rfl fun _ => Iff.rfl

theorem guarded_new : (new : Pool n).Guarded := by
  intro t
  cases t <;> simp [Holds, new, WorkerStatus.Holds, CallStatus.Holds]

end Pool

end Acatl.ThreadPool

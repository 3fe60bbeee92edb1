/-
Acatl.ThreadPoolTasks — every accepted task of a thread pool is run once.

The queue and the workers of a pool are a queue with takers in the sense of
`Acatl.Lib.WorkQueue`: `emplace` puts, `take` takes and `run` finishes, and no
other step touches a task (`queue_after`, `events_eq`). What is left to show is
about the pool: a call of `enqueue` puts its task once (`count_puts`), and the
first worker that leaves its loop closes the queue for good (`Closed`).
-/
import Acatl.ThreadPool

namespace Acatl.ThreadPool

open Acatl.Lib

variable {n : Nat}

/-- What a step does to the queue. -/
def Op.view : Op n → Option (WorkQueue.Op (Fin n) TaskId)
  | .emplace c => some (.put c)
  | .take w => some (.take w)
  | .run w => some (.finish w)
  | _ => none

namespace Pool

/-! ## §1 The queue of a pool -/

/-- The tasks that wait, and those that the workers have. -/
def queue (s : Pool n) : WorkQueue.Queue (Fin n) TaskId :=
  ⟨s.tasks, fun w => (s.workers w).task?⟩

/-- The workers that have the task. -/
def holders (s : Pool n) (c : TaskId) : Finset (Fin n) := WorkQueue.holders s.queue c

/-- What has happened to the tasks in a run. -/
def events (ops : List (Op n)) : List (WorkQueue.Event TaskId) :=
  (machine.outputs (new : Pool n) ops).filterMap id

variable {s s' : Pool n}

theorem queue_setWorker (w : Fin n) (status : WorkerStatus) :
    (s.setWorker w status).queue =
      ⟨s.tasks, Function.update s.queue.held w status.task?⟩ := by
  refine congrArg (WorkQueue.Queue.mk s.tasks) (funext fun v => ?_)
  rw [workers_setWorker, Function.update_apply]
  split
  · rfl
  · rfl

/-- A worker goes on with what it has. -/
theorem queue_goes_on {w : Fin n} {status : WorkerStatus}
    (h : status.task? = (s.workers w).task?) : (s.setWorker w status).queue = s.queue := by
  rw [queue_setWorker, h]
  exact congrArg (WorkQueue.Queue.mk s.tasks) (Function.update_eq_self w s.queue.held)

/-- A step that is no step of the queue leaves it as it is. -/
theorem queue_idle {op : Op n} {answer : Answer} (hop : Stepped s op answer s')
    (hview : op.view = none) : answer.map id = none ∧ s'.queue = s.queue := by
  cases hop with
  | emplace => cases hview
  | take => cases hview
  | run => cases hview
  | lock hw hfree =>
    refine ⟨rfl, queue_goes_on (s := { s with queueMutex := _ }) ?_⟩
    rcases hw with hw | hw <;> simp [hw, WorkerStatus.task?]
  | loadStop hw => exact ⟨rfl, queue_goes_on (by split <;> simp [hw, WorkerStatus.task?])⟩
  | testTasks hw => exact ⟨rfl, queue_goes_on (by split <;> simp [hw, WorkerStatus.task?])⟩
  | sleep hw =>
    exact ⟨rfl, queue_goes_on (s := { s with queueMutex := _ }) (by simp [hw, WorkerStatus.task?])⟩
  | spuriousWake hw => exact ⟨rfl, queue_goes_on (by simp [hw, WorkerStatus.task?])⟩
  | checkStop hw => exact ⟨rfl, queue_goes_on (by simp [hw, WorkerStatus.task?])⟩
  | leave hw _ => exact ⟨rfl, queue_goes_on (by simp [hw, WorkerStatus.task?])⟩
  | skip hw _ => exact ⟨rfl, queue_goes_on (by simp [hw, WorkerStatus.task?])⟩
  | unlock _ _ htask _ => exact ⟨rfl, queue_goes_on (s := { s with queueMutex := _ }) htask⟩
  | lockCall => exact ⟨rfl, rfl⟩
  | loadStopCall => exact ⟨rfl, rfl⟩
  | unlockCall => exact ⟨rfl, rfl⟩
  | @notifySome c w hc hw =>
    have hwoken : (s.setWorker w .woken).queue = s.queue :=
      queue_goes_on (by simp [hw, WorkerStatus.task?])
    exact ⟨rfl, hwoken⟩
  | notifyNone => exact ⟨rfl, rfl⟩
  | storeStop => exact ⟨rfl, rfl⟩
  | notifyAll _ =>
    refine ⟨rfl, congrArg (WorkQueue.Queue.mk s.tasks) (funext fun w => ?_)⟩
    cases hw : s.workers w <;> simp [WorkerStatus.wake, WorkerStatus.task?, hw]
  | join => exact ⟨rfl, rfl⟩

/-- The other steps are those of the queue. -/
theorem queue_step {op : Op n} {answer : Answer} (hop : Stepped s op answer s')
    {j : WorkQueue.Op (Fin n) TaskId} (hview : op.view = some j) :
    WorkQueue.Enabled s.queue j ∧ answer = (WorkQueue.step s.queue j).1 ∧
      s'.queue = (WorkQueue.step s.queue j).2 := by
  cases hop with
  | emplace hc =>
    obtain rfl := Option.some.inj hview
    exact ⟨trivial, rfl, rfl⟩
  | @take w stop task rest hw htasks =>
    obtain rfl := Option.some.inj hview
    have hwaiting : s.queue.waiting = task :: rest := htasks
    refine ⟨⟨?_, ?_⟩, ?_, ?_⟩
    · simp [queue, hw, WorkerStatus.task?]
    · rw [hwaiting]
      exact List.cons_ne_nil _ _
    · rw [WorkQueue.step, hwaiting]
    · rw [WorkQueue.step, hwaiting, queue_setWorker]
      rfl
  | @run w task hw =>
    obtain rfl := Option.some.inj hview
    have hheld : s.queue.held w = some task := by simp [queue, hw, WorkerStatus.task?]
    refine ⟨?_, ?_, ?_⟩
    · rw [WorkQueue.Enabled, hheld]
      exact Option.some_ne_none task
    · rw [WorkQueue.step, hheld]
    · rw [WorkQueue.step, hheld, queue_setWorker]
      rfl
  | _ => cases hview

variable {ops : List (Op n)}

/-- **The queue after a run** is that after the steps of the queue. -/
theorem queue_after (hops : machine.Along Enabled new ops) :
    WorkQueue.machine.Along WorkQueue.Enabled WorkQueue.empty (ops.filterMap Op.view) ∧
      WorkQueue.machine.after WorkQueue.empty (ops.filterMap Op.view) =
        (machine.after new ops).queue := by
  refine Machine.refines_along (s := (new : Pool n)) queue Op.view (fun _ => True)
    (fun _ _ _ _ => trivial) ?_ ?_ trivial hops
  · intro s op _ hop hview
    exact (queue_idle (stepped hop) hview).2
  · intro s op j _ hop hview
    obtain ⟨henabled, -, hnext⟩ := queue_step (stepped hop) hview
    exact ⟨henabled, hnext⟩

theorem events_eq (hops : machine.Along Enabled new ops) :
    events ops = WorkQueue.events (ops.filterMap Op.view) := by
  refine Machine.observes_along (s := (new : Pool n)) queue Op.view id id (fun _ => True)
    (fun _ _ _ _ => trivial) ?_ ?_ trivial hops
  · intro s op _ hop hview
    obtain ⟨hquiet, hsame⟩ := queue_idle (stepped hop) hview
    rw [Option.map_id] at hquiet
    exact ⟨hquiet, hsame⟩
  · intro s op j _ hop hview
    obtain ⟨-, hanswer, hnext⟩ := queue_step (stepped hop) hview
    exact ⟨hanswer, hnext⟩

theorem events_append (ops : List (Op n)) (op : Op n) :
    events (ops ++ [op]) = events ops ++ (machine (machine.after new ops) op).1.toList := by
  rw [events, Machine.outputs_append, List.filterMap_append]
  congr 1

/-! ## §2 A call puts its task once -/

/-- How often the task of a call was put into the queue. -/
def PutOnce (ops : List (Op n)) (s : Pool n) : Prop :=
  ∀ c, (WorkQueue.puts (events ops)).count c = if (s.calls c).Queued then 1 else 0

/-- A step that does not put a task, and leaves each call on its side. -/
theorem PutOnce.keeps (h : PutOnce ops s) {op : Op n} (hputs : WorkQueue.puts
    (events (ops ++ [op])) = WorkQueue.puts (events ops))
    (hcalls : ∀ c, (s'.calls c).Queued ↔ (s.calls c).Queued) : PutOnce (ops ++ [op]) s' := by
  intro c
  rw [hputs, h c]
  simp only [hcalls]

theorem queued_setCall {c : TaskId} {status : CallStatus}
    (h : status.Queued ↔ (s.calls c).Queued) (d : TaskId) :
    ((s.setCall c status).calls d).Queued ↔ (s.calls d).Queued := by
  rw [calls_setCall]
  split
  · rename_i hd
    rw [h, hd]
  · exact Iff.rfl

theorem PutOnce.step (h : PutOnce ops s) {op : Op n} {answer : Answer}
    (hevents : events (ops ++ [op]) = events ops ++ answer.toList)
    (hop : Stepped s op answer s') : PutOnce (ops ++ [op]) s' := by
  have hquiet : answer = none →
      WorkQueue.puts (events (ops ++ [op])) = WorkQueue.puts (events ops) := by
    intro hnone
    rw [hevents, hnone, Option.toList_none, List.append_nil]
  cases hop with
  | @emplace c hc =>
    intro d
    rw [hevents, Option.toList_some, WorkQueue.puts_put, List.count_append, h d, calls_setCall]
    by_cases hd : d = c
    · subst hd
      simp [hc, CallStatus.Queued]
    · simp [hd, Ne.symm hd]
  | take =>
    refine h.keeps ?_ fun _ => Iff.rfl
    rw [hevents, Option.toList_some, WorkQueue.puts_taken]
  | run =>
    refine h.keeps ?_ fun _ => Iff.rfl
    rw [hevents, Option.toList_some, WorkQueue.puts_finished]
  | lockCall hc =>
    exact h.keeps (hquiet rfl)
      (queued_setCall (s := { s with queueMutex := _ }) (by simp [hc, CallStatus.Queued]))
  | loadStopCall hc =>
    exact h.keeps (hquiet rfl) (queued_setCall (by split <;> simp [hc, CallStatus.Queued]))
  | unlockCall _ _ hqueued =>
    exact h.keeps (hquiet rfl) (queued_setCall (s := { s with queueMutex := _ }) hqueued)
  | @notifySome c w hc hw =>
    exact h.keeps (hquiet rfl) (queued_setCall (s := s.setWorker w .woken)
      (by simp [hc, CallStatus.Queued]))
  | notifyNone hc _ =>
    exact h.keeps (hquiet rfl) (queued_setCall (by simp [hc, CallStatus.Queued]))
  | _ => exact h.keeps (hquiet rfl) fun _ => Iff.rfl

theorem count_puts (hops : machine.Along Enabled new ops) :
    PutOnce ops (machine.after new ops) := by
  refine Machine.history_along PutOnce ?_ ?_ hops
  · intro c
    simp [events, WorkQueue.puts, new, CallStatus.Queued]
  · intro ops op h hop
    exact h.step (events_append ops op) (stepped hop)

/-! ## §3 Workers that leave -/

/-- The pool is stopped and empty, and no caller is about to put a task. -/
structure Closed (s : Pool n) : Prop where
  stop : s.stop = true
  tasks : s.tasks = []
  calls : ∀ c, s.calls c ≠ .accepted

/-- No new call is about to put a task. -/
theorem Closed.keeps (h : s.Closed) (hstop : s'.stop = true) (htasks : s'.tasks = s.tasks)
    (hcalls : ∀ c, s'.calls c = .accepted → s.calls c = .accepted) : s'.Closed :=
  ⟨hstop, htasks.trans h.tasks, fun c hc => h.calls c (hcalls c hc)⟩

theorem accepted_setCall {c : TaskId} {status : CallStatus} (hstatus : status ≠ .accepted)
    (d : TaskId) (hd : (s.setCall c status).calls d = .accepted) : s.calls d = .accepted := by
  rw [calls_setCall] at hd
  split at hd
  · exact absurd hd hstatus
  · exact hd

/-- **A closed pool stays closed.** -/
theorem Closed.step (h : s.Closed) {op : Op n} {answer : Answer} (hop : Stepped s op answer s') :
    s'.Closed := by
  cases hop with
  | emplace hc => exact absurd hc (h.calls _)
  | take _ htasks =>
    rw [h.tasks] at htasks
    cases htasks
  | lockCall => exact h.keeps h.stop rfl fun d hd => accepted_setCall (by simp) d hd
  | loadStopCall => exact h.keeps h.stop rfl fun d hd => accepted_setCall (by simp [h.stop]) d hd
  | unlockCall _ hfree =>
    refine h.keeps h.stop rfl fun d hd => accepted_setCall ?_ d hd
    intro haccepted
    exact hfree (by simp [haccepted, CallStatus.Holds])
  | notifySome => exact h.keeps h.stop rfl fun d hd => accepted_setCall (by simp) d hd
  | notifyNone => exact h.keeps h.stop rfl fun d hd => accepted_setCall (by simp) d hd
  | storeStop => exact h.keeps rfl rfl fun _ hd => hd
  | _ => exact h.keeps h.stop rfl fun _ hd => hd

theorem left_setWorker {w v : Fin n} {status : WorkerStatus} (hstatus : ¬ status.Left)
    (hleft : ((s.setWorker w status).workers v).Left) : (s.workers v).Left := by
  rw [workers_setWorker] at hleft
  split at hleft
  · exact absurd hleft hstatus
  · exact hleft

/-- A worker leaves by the step `leave`. -/
theorem left_of_step {op : Op n} {answer : Answer} (hop : Stepped s op answer s') {w : Fin n}
    (hleft : (s'.workers w).Left) : (s.workers w).Left ∨ op = .leave w := by
  cases hop with
  | lock =>
    exact .inl (left_setWorker (s := { s with queueMutex := _ }) (by simp [WorkerStatus.Left])
      hleft)
  | loadStop => exact .inl (left_setWorker (by split <;> simp [WorkerStatus.Left]) hleft)
  | testTasks => exact .inl (left_setWorker (by split <;> simp [WorkerStatus.Left]) hleft)
  | sleep =>
    exact .inl (left_setWorker (s := { s with queueMutex := _ }) (by simp [WorkerStatus.Left])
      hleft)
  | spuriousWake => exact .inl (left_setWorker (by simp [WorkerStatus.Left]) hleft)
  | checkStop => exact .inl (left_setWorker (by simp [WorkerStatus.Left]) hleft)
  | @leave v hw hempty =>
    rw [workers_setWorker] at hleft
    split at hleft
    · rename_i hv
      exact .inr (by rw [hv])
    · exact .inl hleft
  | take =>
    exact .inl (left_setWorker (s := { s with tasks := _ }) (by simp [WorkerStatus.Left]) hleft)
  | skip => exact .inl (left_setWorker (by simp [WorkerStatus.Left]) hleft)
  | @unlock v status _ _ _ hstatus =>
    rw [workers_setWorker] at hleft
    split at hleft
    · rename_i hv
      rcases hstatus with ⟨-, hleaving⟩ | rfl | ⟨task, rfl⟩
      · exact .inl (by simp [hv, hleaving, WorkerStatus.Left])
      · exact hleft.elim
      · exact hleft.elim
    · exact .inl hleft
  | run => exact .inl (left_setWorker (by simp [WorkerStatus.Left]) hleft)
  | @notifySome c v _ _ =>
    have hwoken : ((s.setWorker v .woken).workers w).Left := hleft
    exact .inl (left_setWorker (by simp [WorkerStatus.Left]) hwoken)
  | notifyAll =>
    refine .inl ?_
    cases hw : s.workers w <;> simp [WorkerStatus.wake, WorkerStatus.Left, hw] at hleft ⊢
  | _ => exact .inl hleft

theorem stop_of_step {op : Op n} {answer : Answer} (hop : Stepped s op answer s')
    (hstop : s.stop = true) : s'.stop = true := by
  cases hop with
  | storeStop => rfl
  | _ => exact hstop

theorem checked_setWorker {w v : Fin n} {status : WorkerStatus} (hstatus : status ≠ .checked true)
    (hv : (s.setWorker w status).workers v = .checked true) : s.workers v = .checked true := by
  rw [workers_setWorker] at hv
  split at hv
  · exact absurd hv hstatus
  · exact hv

/-- Whoever has seen the flag set, has seen it in this state or before. -/
theorem checked_of_step {op : Op n} {answer : Answer} (hop : Stepped s op answer s') {w : Fin n}
    (hw : s'.workers w = .checked true) : s.workers w = .checked true ∨ s.stop = true := by
  cases hop with
  | lock => exact .inl (checked_setWorker (s := { s with queueMutex := _ }) (by simp) hw)
  | loadStop => exact .inl (checked_setWorker (by split <;> simp) hw)
  | testTasks => exact .inl (checked_setWorker (by split <;> simp) hw)
  | sleep => exact .inl (checked_setWorker (s := { s with queueMutex := _ }) (by simp) hw)
  | spuriousWake => exact .inl (checked_setWorker (by simp) hw)
  | checkStop =>
    rw [workers_setWorker] at hw
    split at hw
    · exact .inr (WorkerStatus.checked.inj hw)
    · exact .inl hw
  | leave => exact .inl (checked_setWorker (by simp) hw)
  | take => exact .inl (checked_setWorker (s := { s with tasks := _ }) (by simp) hw)
  | skip => exact .inl (checked_setWorker (by simp) hw)
  | unlock _ hfree =>
    refine .inl (checked_setWorker (s := { s with queueMutex := _ }) ?_ hw)
    intro hchecked
    exact hfree (by simp [hchecked, WorkerStatus.Holds])
  | run => exact .inl (checked_setWorker (by simp) hw)
  | @notifySome c v _ _ =>
    have hwoken : (s.setWorker v .woken).workers w = .checked true := hw
    exact .inl (checked_setWorker (by simp) hwoken)
  | notifyAll =>
    refine .inl ?_
    cases hv : s.workers w <;> simp [WorkerStatus.wake, hv] at hw ⊢
    exact hw
  | _ => exact .inl hw

/-- What holds of the workers in every reachable state. -/
structure Settled (s : Pool n) : Prop where
  guarded : s.Guarded
  checked : ∀ w, s.workers w = .checked true → s.stop = true
  left : ∀ w, (s.workers w).Left → s.Closed

/-- A worker that leaves finds the pool closed: it has the mutex, so no caller
is between its look at the flag and `emplace`. -/
theorem Settled.closed (h : s.Settled) {w : Fin n} (hw : s.workers w = .checked true)
    (hempty : s.tasks = []) : s.Closed := by
  refine ⟨h.checked w hw, hempty, ?_⟩
  intro c hc
  have hworker : s.Holds (.worker w) := by simp [Holds, hw, WorkerStatus.Holds]
  have hcaller : s.Holds (.caller c) := by simp [Holds, hc, CallStatus.Holds]
  cases h.guarded.alone hworker hcaller

theorem Settled.step (h : s.Settled) {op : Op n} {answer : Answer}
    (hop : Stepped s op answer s') : s'.Settled where
  guarded := h.guarded.step hop
  checked w hw := by
    rcases checked_of_step hop hw with hbefore | hstop
    · exact stop_of_step hop (h.checked w hbefore)
    · exact stop_of_step hop hstop
  left w hw := by
    rcases left_of_step hop hw with hbefore | rfl
    · exact (h.left w hbefore).step hop
    · have hclosed : s.Closed := by
        cases hop with
        | leave hchecked hempty => exact h.closed hchecked hempty
      exact hclosed.step hop

theorem settled_new : (new : Pool n).Settled where
  guarded := guarded_new
  checked w hw := by simp [new] at hw
  left w hw := by simp [new, WorkerStatus.Left] at hw

theorem settled_after (hops : machine.Along Enabled new ops) :
    (machine.after new ops).Settled :=
  Machine.inv_along Settled (fun _ _ h hop => h.step (stepped hop)) settled_new hops

/-! ## §4 Each task once -/

/-- **Every accepted task is run exactly once, in the order of the queue.** In
every reachable state of a pool with at least one worker, the task of a call is
in the queue, with one worker or finished, and only once, if the call has put
it into the queue; the task of any other call, in particular of one that
throws, is nowhere. The tasks that were taken are the first that were put, in
that order. When all workers have returned the queue is empty. -/
theorem exactly_once (hn : 1 ≤ n) (ops : List (Op n)) (hops : machine.Along Enabled new ops) :
    let s := machine.after new ops
    (∀ c, s.tasks.count c + (s.holders c).card + (WorkQueue.finishes (events ops)).count c =
      if (s.calls c).Queued then 1 else 0) ∧
    WorkQueue.takes (events ops) ++ s.tasks = WorkQueue.puts (events ops) ∧
    ((∀ w, s.workers w = .returned) → s.tasks = []) := by
  intro s
  obtain ⟨halong, hqueue⟩ := queue_after hops
  refine ⟨?_, ?_, ?_⟩
  · intro c
    have hcount := WorkQueue.count_puts halong c
    rw [← events_eq hops, hqueue, count_puts hops c] at hcount
    exact hcount.symm
  · have horder := WorkQueue.takes_append_waiting halong
    rw [← events_eq hops, hqueue] at horder
    exact horder
  · intro hall
    have hfirst : (s.workers ⟨0, hn⟩).Left := by simp [hall, WorkerStatus.Left]
    exact ((settled_after hops).left _ hfirst).tasks

/-- One worker, one task, and the end of the pool. -/
def oneTask : List (Op 1) :=
  [.lockCall 0, .loadStopCall 0, .emplace 0, .unlockCall 0, .lock 0, .loadStop 0, .testTasks 0,
    .checkStop 0, .take 0, .notifyOne 0 none, .storeStop, .unlock 0, .notifyAll, .run 0, .lock 0,
    .loadStop 0, .checkStop 0, .leave 0, .unlock 0, .join]

theorem exactly_once_one :
    let s := machine.after new oneTask
    (∀ c, s.tasks.count c + (s.holders c).card +
        (WorkQueue.finishes (events oneTask)).count c = if (s.calls c).Queued then 1 else 0) ∧
    WorkQueue.takes (events oneTask) ++ s.tasks = WorkQueue.puts (events oneTask) ∧
    ((∀ w, s.workers w = .returned) → s.tasks = []) :=
  exactly_once (Nat.le_refl 1) oneTask (by decide)

end Pool

end Acatl.ThreadPool

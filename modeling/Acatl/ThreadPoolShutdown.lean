/-
Acatl.ThreadPoolShutdown — the end of a thread pool, and workers that sleep
through it.

`~Threadpool` stores the stop flag and notifies without the mutex. A worker
that has read the flag before, and has found the queue empty, goes to sleep
afterwards; `notify_all` does not reach it, nothing notifies it later on, and
the destructor waits for it (`sleeps_on`, `shutdown_not_always_awake`). The
worker has the mutex locked all that time, so storing the flag under the mutex
would keep the destructor out of this window.

  `no_lost_wakeup`   apart from that window, no worker sleeps on.
-/
import Acatl.ThreadPool

namespace Acatl.ThreadPool

open Acatl.Lib

variable {n : Nat}

namespace Pool

/-! ## §1 Lost wake-ups -/

/-- The destructor is past `notify_all`. -/
def PastNotify (s : Pool n) : Prop := ∃ joined, s.destructor = .joining joined

/-- A worker is asleep though the destructor has notified all. -/
def LostWakeup (s : Pool n) : Prop := s.PastNotify ∧ ∃ w, s.workers w = .asleep

/-- The worker has read the flag before it was set, the queue is empty, and it
is not asleep yet. -/
def AboutToSleep (s : Pool n) (w : Fin n) : Prop :=
  s.workers w = .unready ∨ s.workers w = .unset ∧ s.tasks = []

/-- If the step is `notify_all`, no worker is about to fall asleep. -/
def ClearAtNotify (s : Pool n) (op : Op n) : Prop := op = .notifyAll → ∀ w, ¬ s.AboutToSleep w

instance (s : Pool n) (w : Fin n) : Decidable (s.AboutToSleep w) :=
  inferInstanceAs (Decidable (_ ∨ _))

instance (s : Pool n) (op : Op n) : Decidable (s.ClearAtNotify op) :=
  inferInstanceAs (Decidable (_ → _))

/-- No run without spurious wake-ups leads to a lost wake-up. -/
def ShutsDownAwake (n : Nat) : Prop :=
  ∀ ops : List (Op n), machine.Along Enabled new ops → (∀ w, .spuriousWake w ∉ ops) →
    ¬ (machine.after new ops).LostWakeup

/-! ## §2 What the steps do -/

variable {s s' : Pool n}

/-- The worker is asleep, or will be. -/
def Drowsy (s : Pool n) (w : Fin n) : Prop := s.workers w = .asleep ∨ s.AboutToSleep w

theorem drowsy_setWorker {w v : Fin n} {status : WorkerStatus} (hasleep : status ≠ .asleep)
    (hunready : status ≠ .unready) (hunset : status ≠ .unset)
    (hv : (s.setWorker w status).Drowsy v) : s.Drowsy v := by
  simp only [Drowsy, AboutToSleep, workers_setWorker, tasks_setWorker] at hv ⊢
  split at hv
  · rcases hv with h | h | ⟨h, -⟩
    · exact absurd h hasleep
    · exact absurd h hunready
    · exact absurd h hunset
  · exact hv

/-- Once the flag is set, no worker gets drowsy. -/
theorem drowsy_of_step {op : Op n} {answer : Answer} (hop : Stepped s op answer s')
    (hguarded : s.Guarded) (hstop : s.stop = true) {v : Fin n} (hv : s'.Drowsy v) :
    s.Drowsy v := by
  cases hop with
  | lock => exact drowsy_setWorker (s := { s with queueMutex := _ }) (by simp) (by simp) (by simp) hv
  | loadStop =>
    rw [if_pos hstop] at hv
    exact drowsy_setWorker (by simp) (by simp) (by simp) hv
  | @testTasks w hw =>
    by_cases hempty : s.tasks = []
    · rw [if_pos hempty] at hv
      simp only [Drowsy, AboutToSleep, workers_setWorker, tasks_setWorker] at hv ⊢
      by_cases hvw : v = w
      · exact .inr (.inr ⟨hvw ▸ hw, hempty⟩)
      · simpa only [if_neg hvw] using hv
    · rw [if_neg hempty] at hv
      exact drowsy_setWorker (by simp) (by simp) (by simp) hv
  | @sleep w hw =>
    simp only [Drowsy, AboutToSleep, workers_setWorker, tasks_setWorker] at hv ⊢
    by_cases hvw : v = w
    · exact .inr (.inl (hvw ▸ hw))
    · simpa only [if_neg hvw] using hv
  | spuriousWake => exact drowsy_setWorker (by simp) (by simp) (by simp) hv
  | checkStop => exact drowsy_setWorker (by simp) (by simp) (by simp) hv
  | leave => exact drowsy_setWorker (by simp) (by simp) (by simp) hv
  | @take w stop task rest hw htasks =>
    have hbefore := drowsy_setWorker (s := { s with tasks := rest }) (by simp) (by simp) (by simp) hv
    rcases hbefore with h | h | ⟨hunset, -⟩
    · exact .inl h
    · exact .inr (.inl h)
    · -- a worker that looks at the queue has the mutex, as the one that takes has
      have hunset : s.workers v = .unset := hunset
      have hboth := hguarded.alone (t := .worker v) (u := .worker w)
        (by simp [Holds, hunset, WorkerStatus.Holds]) (by simp [Holds, hw, WorkerStatus.Holds])
      cases hboth
      rw [hw] at hunset
      cases hunset
  | skip => exact drowsy_setWorker (by simp) (by simp) (by simp) hv
  | unlock _ hfree _ hstatus =>
    refine drowsy_setWorker (s := { s with queueMutex := _ }) ?_ ?_ ?_ hv <;>
      rcases hstatus with ⟨rfl, -⟩ | rfl | ⟨task, rfl⟩ <;> simp
  | run => exact drowsy_setWorker (by simp) (by simp) (by simp) hv
  | emplace =>
    rcases hv with h | h | ⟨-, hempty⟩
    · exact .inl h
    · exact .inr (.inl h)
    · simp at hempty
  | @notifySome c w _ _ =>
    have hwoken : (s.setWorker w .woken).Drowsy v := hv
    exact drowsy_setWorker (by simp) (by simp) (by simp) hwoken
  | notifyAll =>
    simp only [Drowsy, AboutToSleep] at hv ⊢
    cases hw : s.workers v <;> simp [WorkerStatus.wake, hw] at hv ⊢
    exact hv
  | _ => exact hv

/-- Behind `notify_all`, the workers that slept are awake. -/
theorem not_drowsy_notifyAll {op : Op n} {answer : Answer} (hop : Stepped s op answer s')
    (hnotify : op = .notifyAll) (hclear : s.ClearAtNotify op) (w : Fin n) : ¬ s'.Drowsy w := by
  subst hnotify
  have hw := hclear rfl w
  cases hop with
  | notifyAll =>
    intro hdrowsy
    rcases hdrowsy with h | h
    · cases hv : s.workers w <;> simp [WorkerStatus.wake, hv] at h
    · refine hw ?_
      simp only [AboutToSleep] at h ⊢
      cases hv : s.workers w <;> simp [WorkerStatus.wake, hv] at h ⊢
      exact h

/-! ## §3 The end of a pool -/

/-- What holds in every state that is reached through the condition. -/
structure Rousing (s : Pool n) : Prop where
  guarded : s.Guarded
  stopped : s.destructor ≠ .start → s.stop = true
  awake : s.PastNotify → ∀ w, ¬ s.Drowsy w

theorem destructor_of_step {op : Op n} {answer : Answer} (hop : Stepped s op answer s')
    (hpast : s'.PastNotify) : s.PastNotify ∨ op = .notifyAll ∧ s.destructor = .stopped := by
  cases hop with
  | storeStop =>
    obtain ⟨joined, h⟩ := hpast
    cases h
  | notifyAll hd => exact .inr ⟨rfl, hd⟩
  | join hd => exact .inl ⟨_, hd⟩
  | _ => exact .inl hpast

theorem stopped_of_step {op : Op n} {answer : Answer} (hop : Stepped s op answer s')
    (h : s.destructor ≠ .start → s.stop = true) : s'.destructor ≠ .start → s'.stop = true := by
  cases hop with
  | storeStop => exact fun _ => rfl
  | notifyAll hd => exact fun _ => h (by simp [hd])
  | join hd => exact fun _ => h (by simp [hd])
  | _ => exact h

theorem Rousing.step (h : s.Rousing) {op : Op n} {answer : Answer}
    (hop : Stepped s op answer s') (hclear : s.ClearAtNotify op) : s'.Rousing where
  guarded := h.guarded.step hop
  stopped := stopped_of_step hop h.stopped
  awake hpast w := by
    rcases destructor_of_step hop hpast with hbefore | ⟨hnotify, -⟩
    · obtain ⟨joined, hd⟩ := hbefore
      have hstop : s.stop = true := h.stopped (by simp [hd])
      intro hw
      exact h.awake ⟨joined, hd⟩ w (drowsy_of_step hop h.guarded hstop hw)
    · exact not_drowsy_notifyAll hop hnotify hclear w

theorem rousing_new : (new : Pool n).Rousing where
  guarded := guarded_new
  stopped h := absurd rfl h
  awake h := by
    obtain ⟨joined, hd⟩ := h
    cases hd

/-- **Apart from the window before a worker falls asleep, no wake-up is lost.**
In every run that never notifies all while a worker is about to fall asleep, no
state has the destructor past `notify_all` and a worker asleep. -/
theorem no_lost_wakeup (ops : List (Op n))
    (hops : machine.Along (fun s op => s.Enabled op ∧ s.ClearAtNotify op) new ops) :
    ¬ (machine.after new ops).LostWakeup := by
  have hrousing : (machine.after new ops).Rousing :=
    Machine.inv_along Rousing (fun _ _ h hop => h.step (stepped hop.1) hop.2) rousing_new hops
  intro hlost
  obtain ⟨hpast, w, hw⟩ := hlost
  exact hrousing.awake hpast w (.inl hw)

/-- A worker that is asleep when the pool is destroyed, and is woken. -/
theorem no_lost_wakeup_asleep :
    ¬ (machine.after (new : Pool 1)
      [.lock 0, .loadStop 0, .testTasks 0, .sleep 0, .storeStop, .notifyAll]).LostWakeup :=
  no_lost_wakeup _ (by decide)

/-- A worker in that window sleeps on: it has nothing to do but to go to sleep. -/
theorem sleeps_on {w : Fin n} (hpast : s.PastNotify) (hw : s.AboutToSleep w) :
    ∃ more, machine.Along Enabled s more ∧ (∀ v, .spuriousWake v ∉ more) ∧
      (machine.after s more).LostWakeup := by
  rcases hw with hw | ⟨hw, hempty⟩
  · refine ⟨[.sleep w], ?_, by simp, ?_⟩
    · simp [Machine.Along, Enabled, step, hw]
    · refine ⟨?_, w, ?_⟩ <;> simp [machine, step, hw, workers_setWorker]
      exact hpast
  · refine ⟨[.testTasks w, .sleep w], ?_, by simp, ?_⟩
    · simp [Machine.Along, Enabled, machine, step, hw, hempty, workers_setWorker]
    · refine ⟨?_, w, ?_⟩ <;> simp [machine, step, hw, hempty, workers_setWorker]
      exact hpast

/-- The worker reads the flag, the destructor sets it and notifies, and the
worker goes to sleep. -/
theorem shutdown_not_always_awake : ¬ ∀ n, ShutsDownAwake n := by
  intro h
  refine h 1 [.lock 0, .loadStop 0, .testTasks 0, .storeStop, .notifyAll, .sleep 0] (by decide)
    (by decide) ⟨⟨0, rfl⟩, 0, rfl⟩

end Pool

end Acatl.ThreadPool

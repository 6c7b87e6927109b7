import Epox.Executor.Data
import Epox.Foundation.History
import Mathlib.Logic.Relation

/-!
# The abstract scheduler

What the executor is for: tasks are spawned, become runnable when they are woken, are polled one at a
time (polls may nest) in the order of their priorities, and sleep in between until they complete.
The abstract state forgets the descriptors, the program counters of the call stack and everything that
a poll computes; it keeps the queues, the tasks being polled, the references to the tasks, and the
pointers in the wake pipe.

`Sched.Step` are the moves of this scheduler.  The executor refines it (`Refinement.lean`): every
step of a thread is a finite sequence of these moves, so each invariant of the moves is an invariant
of the threads.
-/

namespace Epox

/-! ## What the history says about a task -/

section History

variable (t : TaskId)

/-- The task has been enqueued and not been taken out of its queue since. -/
def EnqueuedNow : List Event → Prop :=
  Since (· = .enqueued t) fun e => e = .polled t ∨ e = .aborted t ∨ e = .discarded t

/-- A wake of the task has returned, and since then it has not begun a poll, completed or been
aborted. -/
def WakePending : List Event → Prop :=
  Since (· = .woken t) fun e => e = .polled t ∨ e = .completed t ∨ e = .aborted t

/-- The task has been polled again after its future returned `Poll::Ready`. -/
def PolledAfterReady : List Event → Prop :=
  After (· = .ready t) (· = .polled t)

/-- The task has been polled again after it was aborted. -/
def PolledAfterAbort : List Event → Prop :=
  After (· = .aborted t) (· = .polled t)

/-- The task has been enqueued after it was aborted. -/
def EnqueuedAfterAbort : List Event → Prop :=
  After (· = .aborted t) (· = .enqueued t)

variable {t} {e : Event} {h : List Event}

@[simp] lemma enqueuedNow_cons : EnqueuedNow t (e :: h) ↔
    e = .enqueued t ∨ ¬ (e = .polled t ∨ e = .aborted t ∨ e = .discarded t) ∧ EnqueuedNow t h :=
  Iff.rfl

@[simp] lemma wakePending_cons : WakePending t (e :: h) ↔
    e = .woken t ∨ ¬ (e = .polled t ∨ e = .completed t ∨ e = .aborted t) ∧ WakePending t h :=
  Iff.rfl

@[simp] lemma polledAfterReady_cons : PolledAfterReady t (e :: h) ↔
    e = .polled t ∧ .ready t ∈ h ∨ PolledAfterReady t h := by
  simp [PolledAfterReady]

@[simp] lemma polledAfterAbort_cons : PolledAfterAbort t (e :: h) ↔
    e = .polled t ∧ .aborted t ∈ h ∨ PolledAfterAbort t h := by
  simp [PolledAfterAbort]

@[simp] lemma enqueuedAfterAbort_cons : EnqueuedAfterAbort t (e :: h) ↔
    e = .enqueued t ∧ .aborted t ∈ h ∨ EnqueuedAfterAbort t h := by
  simp [EnqueuedAfterAbort]

instance (h : List Event) : Decidable (EnqueuedNow t h) := decidableSince h

instance (h : List Event) : Decidable (WakePending t h) := decidableSince h

instance (h : List Event) : Decidable (PolledAfterReady t h) := decidableAfter h

instance (h : List Event) : Decidable (PolledAfterAbort t h) := decidableAfter h

instance (h : List Event) : Decidable (EnqueuedAfterAbort t h) := decidableAfter h

end History

/-- No task was in a run queue when it completed. -/
def QuietCompletions : List Event → Prop
  | [] => True
  | e :: h => (∀ t, e = .completed t → ¬ EnqueuedNow t h) ∧ QuietCompletions h

/-- The task was not in a run queue when it completed. -/
def QuietCompletion (t : TaskId) : List Event → Prop
  | [] => True
  | e :: h => (e = .completed t → ¬ EnqueuedNow t h) ∧ QuietCompletion t h

/-- No task was in a run queue when it completed, seen task by task. -/
lemma quietCompletions_iff {h : List Event} : QuietCompletions h ↔ ∀ t, QuietCompletion t h := by
  induction h with
  | nil => exact ⟨fun _ _ => trivial, fun _ => trivial⟩
  | cons e h ih =>
    simp only [QuietCompletions, QuietCompletion, ih]
    exact forall_and.symm

/-- The events that do not record a move of a task. -/
def Event.isNote : Event → Bool
  | .woken _ | .blockOnPolled _ | .blockOnWoken _ | .otherWoken _ | .fdDropped _ _ | .ran _ _ => true
  | _ => false

/-! ## The scheduler -/

/-- The state of the abstract scheduler. -/
@[ext]
structure Sched where
  cur : ExecId
  queues : Family QueueId TaskId
  exec : TaskId → ExecId
  priority : TaskId → Priority
  completed : TaskId → Bool
  handle : TaskId → Bool
  nTasks : ℕ
  /-- The polls in progress, innermost first, and whether the future has returned `Poll::Ready`. -/
  polls : List (TaskId × Bool)
  waking : List TaskId
  /-- The pointers in the pipe of the current executor. -/
  pipe : List (Option TaskId)
  log : List Event
  crashed : Bool

namespace Sched

/-- The tasks being polled. -/
def running (σ : Sched) : List TaskId := σ.polls.map Prod.fst

/-- Some strong reference to the task exists. -/
def alive (σ : Sched) (t : TaskId) : Prop :=
  σ.queues.home t ≠ none ∨ σ.handle t = true ∨ t ∈ σ.running ∨ t ∈ σ.waking

/-- The task is in the run queue of its priority. -/
def runnable (σ : Sched) (t : TaskId) : Prop :=
  σ.queues.home t = some (σ.cur, runq (σ.priority t))

/-- The front of the first run queue that is not empty. -/
def front (σ : Sched) : Option TaskId :=
  (σ.queues.list (σ.cur, .runqHigh)).head?.or
    ((σ.queues.list (σ.cur, .runqNormal)).head?.or (σ.queues.list (σ.cur, .runqLow)).head?)

/-- The moves of the scheduler. -/
inductive Step : Sched → Sched → Prop
  | spawn (σ : Sched) (p : Priority) : Step σ
      { σ with
        exec := Function.update σ.exec σ.nTasks σ.cur
        priority := Function.update σ.priority σ.nTasks p
        completed := Function.update σ.completed σ.nTasks false
        handle := Function.update σ.handle σ.nTasks true
        nTasks := σ.nTasks + 1
        queues := σ.queues.push (σ.cur, runq p) σ.nTasks
        log := .enqueued σ.nTasks :: .spawned σ.nTasks :: σ.log }
  /-- A wake of a live task that has not completed makes it runnable. -/
  | enqueue (σ : Sched) (t : TaskId) (halive : σ.alive t) (hc : σ.completed t = false) : Step σ
      { σ with
        queues := σ.queues.push (σ.cur, runq (σ.priority t)) t
        log := .enqueued t :: σ.log }
  /-- A poll of the first runnable task begins. -/
  | select (σ : Sched) (t : TaskId) (hfront : σ.front = some t) (hrun : t ∉ σ.running) : Step σ
      { σ with
        queues := σ.queues.release t
        polls := (t, false) :: σ.polls
        log := .polled t :: σ.log }
  /-- A pending task that is not queued goes to sleep. -/
  | sleep (σ : Sched) (t : TaskId) (r : List (TaskId × Bool)) (hpolls : σ.polls = (t, false) :: r)
      (hq : σ.queues.home t = none) : Step σ
      { σ with queues := σ.queues.push (σ.cur, .sleepq) t, polls := r }
  /-- A pending task that is queued stays where it is. -/
  | keep (σ : Sched) (t : TaskId) (r : List (TaskId × Bool)) (hpolls : σ.polls = (t, false) :: r)
      (hq : σ.queues.home t ≠ none) : Step σ { σ with polls := r }
  | ready (σ : Sched) (t : TaskId) (r : List (TaskId × Bool)) (hpolls : σ.polls = (t, false) :: r) :
      Step σ { σ with polls := (t, true) :: r, log := .ready t :: σ.log }
  | complete (σ : Sched) (t : TaskId) (r : List (TaskId × Bool)) (hpolls : σ.polls = (t, true) :: r) :
      Step σ
      { σ with
        completed := Function.update σ.completed t true
        polls := r
        log := .completed t :: σ.log }
  | abort (σ : Sched) (t : TaskId) (halive : σ.alive t) : Step σ
      { σ with queues := σ.queues.release t, log := .aborted t :: σ.log }
  /-- A replaced executor drops a task that is still in one of its queues. -/
  | discard (σ : Sched) (t : TaskId) (q : QueueId) (hq : σ.queues.home t = some q)
      (hcur : q.1 ≠ σ.cur) : Step σ
      { σ with queues := σ.queues.release t, log := .discarded t :: σ.log }
  /-- A pointer is written to the pipe. -/
  | write (σ : Sched) (p : Option TaskId) : Step σ { σ with pipe := σ.pipe ++ [p] }
  /-- A pointer is read from the pipe that wakes no task. -/
  | drain (σ : Sched) (p : Option TaskId) (r : List (Option TaskId)) (hpipe : σ.pipe = p :: r)
      (hp : ∀ t, p = some t → ¬ σ.alive t ∨ σ.completed t = true) : Step σ { σ with pipe := r }
  /-- A pointer is read from the pipe and makes its task runnable. -/
  | receive (σ : Sched) (t : TaskId) (r : List (Option TaskId)) (hpipe : σ.pipe = some t :: r)
      (halive : σ.alive t) (hc : σ.completed t = false) : Step σ
      { σ with
        pipe := r
        queues := σ.queues.push (σ.cur, runq (σ.priority t)) t
        log := .enqueued t :: σ.log }
  /-- References are dropped, or taken from one that exists. -/
  | refs (σ : Sched) (handle : TaskId → Bool) (waking : List TaskId)
      (h : ∀ t, { σ with handle := handle, waking := waking }.alive t → σ.alive t) : Step σ
      { σ with handle := handle, waking := waking }
  /-- A new executor takes the place of the current one. -/
  | replace (σ : Sched) : Step σ { σ with cur := σ.cur + 1, pipe := [] }
  /-- A wake of a task returns only when the task is runnable, or its pointer in the pipe, or there is
  nothing to wake. -/
  | note (σ : Sched) (e : Event) (he : e.isNote = true)
      (hwoken : ∀ t, e = .woken t → σ.exec t = σ.cur → σ.alive t → σ.completed t = false →
        σ.runnable t ∨ some t ∈ σ.pipe) : Step σ { σ with log := e :: σ.log }
  /-- The thread panics, possibly with a task in its hands. -/
  | crash (σ : Sched) (t : Option TaskId) : Step σ
      { σ with queues := t.elim σ.queues σ.queues.release, crashed := true }

/-- The scheduler with a fresh executor. -/
def initial : Sched where
  cur := 0
  queues := Family.empty
  exec _ := 0
  priority _ := .high
  completed _ := false
  handle _ := false
  nTasks := 0
  polls := []
  waking := []
  pipe := []
  log := []
  crashed := false

/-- A state of a run of the scheduler. -/
def Reached (σ : Sched) : Prop := Relation.ReflTransGen Step initial σ

/-- What holds initially and is preserved by every move holds in every state of a run. -/
theorem Reached.invariant {P : Sched → Prop} (h0 : P initial)
    (hstep : ∀ σ σ', σ.Reached → P σ → Step σ σ' → P σ') {σ : Sched} (h : σ.Reached) : P σ := by
  induction h with
  | refl => exact h0
  | tail hr hs ih => exact hstep _ _ hr ih hs

end Sched

end Epox

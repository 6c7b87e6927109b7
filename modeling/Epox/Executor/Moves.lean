import Epox.Executor.Machine
import Mathlib.Logic.Relation
import Mathlib.Tactic.SplitIfs

/-!
# What a step of a thread can do

`Thread.Effect` are the elementary changes that wakes and the delivery of events make to the memory of a
thread, `Thread.Effects` their sequences.  `Thread.Acts` lists the steps action by action, `Thread.Move`
by what they change, with everything that is known when they are taken; `acts_of_step` and `move_of_step`
say that the lists are complete.  The invariants of a thread are proved by cases on these, never by
unfolding `step`.
-/

namespace Epox

/-- The events that wakes record. -/
def Event.isWake : Event → Bool
  | .enqueued _ | .woken _ | .blockOnWoken _ | .otherWoken _ => true
  | _ => false

/-- The task a panic is about. -/
def Panic.task : Panic → Option TaskId
  | .taskBorrowed t | .resultBorrowed t => some t
  | _ => none

/-- The memory when a call returns or panics. -/
def Outcome.memory {V : Type} : Outcome V → Thread V
  | .ok s => s
  | .err s => s
  | .panic _ s => s

/-- The panic a call ends with, if any. -/
def Outcome.panicked {V : Type} : Outcome V → Option Panic
  | .panic p _ => some p
  | _ => none

/-- Where a loop that is about to take the next runnable task goes on after polling it. -/
def Frame.loop : Frame → Option Frame
  | .run .select => some (.run .afterTask)
  | .blockOn b .select => some (.blockOn b .waitZero)
  | _ => none

namespace Thread

variable {V : Type} {s s' : Thread V}

/-- The front of the first run queue that is not empty. -/
def front (s : Thread V) : Option TaskId :=
  (s.queues.list (s.cur, .runqHigh)).head?.or
    ((s.queues.list (s.cur, .runqNormal)).head?.or (s.queues.list (s.cur, .runqLow)).head?)

/-- The task is in the run queue of its priority. -/
def runnable (s : Thread V) (t : TaskId) : Prop :=
  s.queues.home t = some (s.cur, runq (s.tasks t).priority)

instance (s : Thread V) (t : TaskId) : Decidable (s.runnable t) :=
  inferInstanceAs (Decidable (_ = _))

/-! ## Effects of wakes -/

/-- An elementary change made by a wake or by the delivery of an event. -/
inductive Effect : Thread V → Thread V → Prop
  /-- A pointer is read from the pipe that wakes no task. -/
  | read {s : Thread V} {p : Option TaskId} {rest : List (Option TaskId)}
      (hpipe : s.executor.pipe = p :: rest)
      (hp : ∀ t, p = some t → s.alive t = false ∨ (s.tasks t).hasCompleted = true) :
      Effect s (s.setExec s.cur { s.executor with pipe := rest })
  /-- A pointer is read from the pipe and its task enqueued. -/
  | receive {s : Thread V} {t : TaskId} {rest : List (Option TaskId)}
      (hpipe : s.executor.pipe = some t :: rest) (halive : s.alive t = true)
      (hc : (s.tasks t).hasCompleted = false) :
      Effect s ((s.setExec s.cur { s.executor with pipe := rest }).enqueue t)
  | enqueue {s : Thread V} {t : TaskId} (halive : s.alive t = true)
      (hc : (s.tasks t).hasCompleted = false) : Effect s (s.enqueue t)
  | setWaker {s : Thread V} {f : FdId} {ew : EpollWaker} :
      Effect s (s.setFd f { s.fds f with ew := ew })
  | write {s : Thread V} {x : ExecId} {p : Option TaskId} :
      Effect s (s.setExec x { s.execs x with pipe := (s.execs x).pipe ++ [p] })
  /-- A wake of a task returns. -/
  | woken {s : Thread V} {t : TaskId}
      (h : s.alive t = true → (s.tasks t).hasCompleted = false →
        (s.tasks t).pipeWr = s.executor.pipeWr → s.runnable t ∨ some t ∈ s.executor.pipe) :
      Effect s (s.emit (.woken t))
  | blockOnWoken {s : Thread V} {b : BlockOnId} : Effect s (s.emit (.blockOnWoken b))
  | otherWoken {s : Thread V} {k : ℕ} : Effect s (s.emit (.otherWoken k))

/-- A sequence of elementary changes. -/
abbrev Effects (s s' : Thread V) : Prop := Relation.ReflTransGen Effect s s'

/-- Enqueueing a task that has not completed. -/
lemma enqueue_of_not_completed {t : TaskId} (hc : (s.tasks t).hasCompleted = false) :
    s.enqueue t = { s with
      queues := s.queues.push (s.cur, runq (s.tasks t).priority) t
      log := .enqueued t :: s.log } := by
  simp [enqueue, hc]

/-- Enqueueing a task that has completed. -/
lemma enqueue_of_completed {t : TaskId} (hc : (s.tasks t).hasCompleted = true) :
    s.enqueue t = s := by
  simp [enqueue, hc]

/-- Waking a live task by hand. -/
lemma enqueue_effects {t : TaskId} (halive : s.alive t = true) : Effects s (s.enqueue t) := by
  by_cases hc : (s.tasks t).hasCompleted = true
  · rw [enqueue_of_completed hc]
  · exact .single (.enqueue halive (by simpa using hc))

/-- `wake_from_pipe` only has effects of wakes. -/
lemma wakeFromPipe_effects (h : s.wakeFromPipe = some s') : Effects s s' := by
  unfold wakeFromPipe at h
  split at h
  · simp at h
  · rename_i p rest hpipe
    split at h
    · obtain rfl := Option.some.inj h
      exact .single (.read hpipe (by simp))
    · rename_i t
      obtain rfl := Option.some.inj h
      by_cases halive : s.alive t = true
      · rw [if_pos (show (s.setExec _ _).alive t = true from halive)]
        by_cases hc : (s.tasks t).hasCompleted = true
        · rw [enqueue_of_completed (show ((s.setExec _ _).tasks t).hasCompleted = true from hc)]
          exact .single (.read hpipe (by simp [hc]))
        · exact .single (.receive hpipe halive (by simpa using hc))
      · rw [if_neg (show ¬ (s.setExec _ _).alive t = true from halive)]
        exact .single (.read hpipe (by simp [halive]))

/-- The delivery of an event only has effects of wakes. -/
lemma deliver_effects {f : FdId} {e : EpollFlags} (h : s.deliver f e = some s') : Effects s s' := by
  dsimp only [deliver] at h
  split_ifs at h
  · obtain rfl := Option.some.inj h
    rfl
  · have hset : Effects s (s.setFd f { s.fds f with
        ew := { (s.fds f).ew with events := (s.fds f).ew.events ||| e } }) := .single .setWaker
    split at h
    · rename_i t _
      obtain rfl := Option.some.inj h
      split_ifs with halive
      · exact hset.trans (enqueue_effects halive)
      · exact hset
    · obtain rfl := Option.some.inj h
      exact hset

/-- The loop over the events only has effects of wakes. -/
lemma wakeup_effects (evs : List EpollEvent) (s : Thread V) : Effects s (s.wakeup evs).memory := by
  induction evs generalizing s with
  | nil => rfl
  | cons e evs ih =>
    cases e with
    | pipe =>
      simp only [wakeup]
      split
      · rename_i s' hs'
        exact (wakeFromPipe_effects hs').trans (ih s')
      · rfl
    | fd f e =>
      simp only [wakeup]
      split
      · rename_i s' hs'
        exact (deliver_effects hs').trans (ih s')
      · rfl

/-- The loop over the events panics only over an `Fd`. -/
lemma wakeup_panicked (evs : List EpollEvent) (s : Thread V) :
    ∀ p ∈ (s.wakeup evs).panicked, p.task = none := by
  induction evs generalizing s with
  | nil => simp [wakeup, Outcome.panicked]
  | cons e evs ih =>
    cases e with
    | pipe =>
      simp only [wakeup]
      split
      · exact ih _
      · simp [Outcome.panicked]
    | fd f e =>
      simp only [wakeup]
      split
      · exact ih _
      · simp [Outcome.panicked, Panic.task]

/-- `epoll_wait` only has effects of wakes. -/
lemma epollWait_effects (s : Thread V) (k : KernelAnswer) : Effects s (s.epollWait k).memory := by
  unfold epollWait
  split_ifs
  · rfl
  · split
    · exact wakeup_effects _ s
    · rfl
    · rfl

/-- `epoll_wait` panics only over an `Fd`. -/
lemma epollWait_panicked (s : Thread V) (k : KernelAnswer) :
    ∀ p ∈ (s.epollWait k).panicked, p.task = none := by
  unfold epollWait
  split_ifs
  · simp [Outcome.panicked]
  · split
    · exact wakeup_panicked _ s
    · simp [Outcome.panicked]
    · simp [Outcome.panicked]

/-- A write to a pipe only has effects of wakes. -/
lemma write_effects {fd : RawFd} {p : Option TaskId} (h : s.write fd p = some s') :
    Effects s s' := by
  unfold write at h
  split at h
  · obtain rfl := Option.some.inj h
    rfl
  · split_ifs at h
    obtain rfl := Option.some.inj h
    exact .single .write

/-- A write to the pipe of the current executor ends up in it. -/
lemma mem_pipe_of_write {fd : RawFd} {p : Option TaskId} (h : s.write fd p = some s')
    (hfd : fd = s.executor.pipeWr) : p ∈ s'.executor.pipe := by
  have hof : s.pipeOf fd = some s.cur := by simp [pipeOf, hfd]
  simp only [write, hof] at h
  split_ifs at h
  obtain rfl := Option.some.inj h
  simp [executor, setExec]

/-- What a write leaves alone: everything but a pipe, and of the pipe of the current executor that it
holds a pointer. -/
structure Written (s s' : Thread V) : Prop where
  cur : s'.cur = s.cur
  queues : s'.queues = s.queues
  tasks : s'.tasks = s.tasks
  stack : s'.stack = s.stack
  log : s'.log = s.log
  pipeWr : s'.executor.pipeWr = s.executor.pipeWr
  pipe : s.executor.pipe ≠ [] → s'.executor.pipe ≠ []

/-- A write changes nothing but a pipe. -/
lemma write_written {fd : RawFd} {p : Option TaskId} (h : s.write fd p = some s') : Written s s' := by
  unfold write at h
  split at h
  · obtain rfl := Option.some.inj h
    exact ⟨rfl, rfl, rfl, rfl, rfl, rfl, id⟩
  · rename_i x _
    split_ifs at h
    obtain rfl := Option.some.inj h
    by_cases hx : s.cur = x
    · refine ⟨rfl, rfl, rfl, rfl, rfl, ?_, fun _ => ?_⟩ <;> simp [executor, setExec, hx]
    · refine ⟨rfl, rfl, rfl, rfl, rfl, ?_, fun hp => ?_⟩
      · simp [executor, setExec, hx]
      · simpa [executor, setExec, hx] using hp

/-- The references to a task are not affected by the effects of wakes. -/
lemma Effect.alive_congr {t : TaskId} (h : Effect s s') : s'.alive t = s.alive t := by
  cases h with
  | receive hpipe halive hc =>
    rename_i u rest
    rw [enqueue_of_not_completed (by exact hc)]
    by_cases ht : t = u
    · subst ht
      simpa [alive, isQueued, setExec] using halive
    · simp [alive, isQueued, setExec, Family.home_push, ht, running]
  | enqueue halive hc =>
    rename_i u
    rw [enqueue_of_not_completed hc]
    by_cases ht : t = u
    · subst ht
      simpa [alive, isQueued] using halive
    · simp [alive, isQueued, Family.home_push, ht, running]
  | _ => rfl

/-- The references to a task are not affected by the effects of wakes. -/
lemma Effects.alive_congr {t : TaskId} (h : Effects s s') : s'.alive t = s.alive t := by
  induction h with
  | refl => rfl
  | tail _ h ih => rw [h.alive_congr, ih]

/-- After it was enqueued, a task that has not completed is runnable. -/
lemma runnable_enqueue {t : TaskId} (hc : (s.tasks t).hasCompleted = false) :
    (s.enqueue t).runnable t := by
  simp [enqueue_of_not_completed hc, runnable]

/-- A task that is enqueued and then noted as woken. -/
lemma enqueue_woken_effects {t : TaskId} (halive : s.alive t = true) :
    Effects s ((s.enqueue t).emit (.woken t)) := by
  refine (enqueue_effects halive).tail (.woken fun _ hc _ => .inl (runnable_enqueue ?_))
  by_cases h : (s.tasks t).hasCompleted = true
  · rwa [enqueue_of_completed h] at hc
  · simpa using h

/-- A wake through a waker of a task on its own thread. -/
lemma taskWake_effects (s : Thread V) (k : KernelAnswer) (t : TaskId) :
    Effects s (s.taskWake k t).memory := by
  have key : s.alive t = true → ∀ s', Effects s s' →
      Effects s ((s'.enqueue t).emit (.woken t)) := fun halive s' h =>
    h.trans (enqueue_woken_effects (h.alive_congr.trans halive))
  unfold taskWake
  split_ifs with halive hpipe hb
  · have hwait := epollWait_effects s k
    cases hk : s.epollWait k with
    | ok s' | err s' => exact key halive s' (by simpa [hk, Outcome.memory] using hwait)
    | panic p s' => simpa [hk, Outcome.memory, Outcome.ignoreErr, Outcome.andThen] using hwait
  · exact key halive s .refl
  · split
    · rename_i s' hs'
      have hw := write_written hs'
      refine (write_effects hs').tail (.woken fun _ _ hp => absurd ?_ hpipe)
      rw [← hw.tasks, hp, hw.pipeWr]
    · rfl
  · exact .single (.woken fun h => absurd h halive)

/-- A wake through a waker of a task panics only over an `Fd` or a full pipe. -/
lemma taskWake_panicked (s : Thread V) (k : KernelAnswer) (t : TaskId) :
    ∀ p ∈ (s.taskWake k t).panicked, p.task = none := by
  unfold taskWake
  split_ifs
  · have hwait := epollWait_panicked s k
    cases hk : s.epollWait k with
    | ok s' | err s' => simp [Outcome.ignoreErr, Outcome.andThen, Outcome.panicked]
    | panic p s' => simpa [hk, Outcome.ignoreErr, Outcome.andThen, Outcome.panicked] using hwait
  · simp [Outcome.andThen, Outcome.panicked]
  · cases s.write (s.tasks t).pipeWr (some t) <;> simp [Outcome.panicked, Panic.task]
  · simp [Outcome.panicked]

/-- A wake through a waker of a `block_on` on its own thread. -/
lemma blockOnWake_effects (s : Thread V) (pipeWr : RawFd) (b : BlockOnId) :
    Effects s (s.blockOnWake pipeWr b).memory := by
  unfold blockOnWake
  split_ifs
  · exact .single .blockOnWoken
  · split
    · rename_i s' hs'
      exact (write_effects hs').tail .blockOnWoken
    · rfl

/-- A wake only has effects of wakes. -/
lemma wake_effects (s : Thread V) (k : KernelAnswer) (w : Waker) :
    Effects s (s.wake k w).memory := by
  cases w with
  | task t => exact taskWake_effects s k t
  | blockOn pipeWr b => exact blockOnWake_effects s pipeWr b
  | noop => rfl
  | other j => exact .single .otherWoken

/-- A wake panics only over an `Fd` or a full pipe. -/
lemma wake_panicked (s : Thread V) (k : KernelAnswer) (w : Waker) :
    ∀ p ∈ (s.wake k w).panicked, p.task = none := by
  cases w with
  | task t => exact taskWake_panicked s k t
  | blockOn pipeWr b =>
    simp only [wake, blockOnWake]
    split_ifs
    · simp [Outcome.panicked]
    · cases s.write pipeWr none <;> simp [Outcome.panicked, Panic.task]
  | noop | other j => simp [wake, Outcome.panicked]

/-- The write of another thread that wakes a task only has effects of wakes. -/
lemma foreignWrite_effects (s : Thread V) (t : TaskId) :
    Effects { s with waking := s.waking.erase t } (s.foreignWrite t) := by
  dsimp only [foreignWrite]
  split
  · rename_i s₁ hs₁
    refine (write_effects hs₁).tail (.woken fun _ _ hp => .inr ?_)
    have hw := write_written hs₁
    refine mem_pipe_of_write hs₁ ?_
    rw [hw.tasks, hw.pipeWr] at hp
    exact hp
  · rfl

/-- The wake of a `block_on` by another thread only has effects of wakes. -/
lemma foreignBlockOn_effects (s : Thread V) (b : BlockOnId) : Effects s (s.foreignBlockOn b) := by
  unfold foreignBlockOn
  split
  · rename_i s₁ hs₁
    exact (write_effects hs₁).tail .blockOnWoken
  · exact .single .blockOnWoken

/-! ## Actions -/

/-- What a call from the caller's code has done. -/
lemma call_eq_some {s₁ : Thread V} : s.call s₁ = some s' ↔ s.inUserCode = true ∧ s' = s₁ := by
  simp only [call, Option.ite_none_right_eq_some, Option.some.injEq]
  exact and_congr_right fun _ => eq_comm

/-- A step acts. -/
lemma act_of_step {a : Action V} (h : s.step a = some s') : s.act a = some s' := by
  unfold step at h
  split_ifs at h
  exact h

/-- The steps of a thread, action by action, with what is known when they are taken. -/
inductive Acts (s : Thread V) : Action V → Thread V → Prop
  | go (k : KernelAnswer) {s' : Thread V} (hk : s.answers k) (h : s.go k = some s') :
      Acts s (.go k) s'
  | replaceFailed {rest : List Frame} (hstack : s.stack = .run .replace :: rest) :
      Acts s (.replace none) (s.setStack rest)
  | replace (fd : RawFd) {rest : List Frame} (hstack : s.stack = .run .replace :: rest)
      (hfd : s.pipeOf fd = none) :
      Acts s (.replace (some fd)) (({ s with cur := s.cur + 1 }.setExec (s.cur + 1)
        (Executor.new fd)).setStack (.run (.teardown s.cur) :: rest))
  | spawn (priority : Priority) (hu : s.inUserCode = true) :
      Acts s (.spawn priority) (s.spawn priority)
  | wake (w : Waker) (k : KernelAnswer) (hu : s.inUserCode = true) (hw : s.knows w = true)
      (hk : s.answers k) : Acts s (.wake w k) (s.wake k w).thread
  | abort (t : TaskId) (hu : s.inUserCode = true) (hh : (s.tasks t).handle = true) :
      Acts s (.abort t) (s.abort t)
  | handleResult (t : TaskId) (hu : s.inUserCode = true) (hh : (s.tasks t).handle = true) :
      Acts s (.handleResult t) (s.handleResult t)
  | handlePoll (t : TaskId) (w : Waker) (hu : s.inUserCode = true) (hh : (s.tasks t).handle = true) :
      Acts s (.handlePoll t w) (s.handlePoll t w)
  | dropHandle (t : TaskId) (hu : s.inUserCode = true) (hh : (s.tasks t).handle = true) :
      Acts s (.dropHandle t) (s.setTask t { s.tasks t with handle := false })
  | shutdown (hu : s.inUserCode = true) :
      Acts s .shutdown (s.setExec s.cur { s.executor with shutdown := true })
  | run (hu : s.inUserCode = true) : Acts s .run (s.setStack (.run .select :: s.stack))
  | blockOn (hu : s.inUserCode = true) : Acts s .blockOn s.enterBlockOn
  | pending {t : TaskId} {rest : List Frame} (hstack : s.stack = .runTask t .polling :: rest) :
      Acts s .pending ((s.setTask t { s.tasks t with borrowed := false }).setStack
        (.runTask t .settle :: rest))
  | blockOnPending {b : BlockOnId} {rest : List Frame} (hstack : s.stack = .blockOn b .polling :: rest) :
      Acts s .pending (s.setStack (.blockOn b .select :: rest))
  | ready (v : V) {t : TaskId} {rest : List Frame} (hstack : s.stack = .runTask t .polling :: rest) :
      Acts s (.ready v) (((s.setTask t { s.tasks t with output := some v, handleWaker := .noop }).setStack
        (.runTask t (.wakeHandle (s.tasks t).handleWaker) :: rest)).emit (.ready t))
  | blockOnReady (v : V) {b : BlockOnId} {rest : List Frame}
      (hstack : s.stack = .blockOn b .polling :: rest) : Acts s (.ready v) (s.setStack rest)
  | handleWoken {t : TaskId} {rest : List Frame} (hstack : s.stack = .runTask t .inHandleWake :: rest) :
      Acts s .finish (s.setStack (.runTask t .complete :: rest))
  | dropped {t : TaskId} {rest : List Frame} (hstack : s.stack = .runTask t .drop :: rest) :
      Acts s .finish (s.setStack rest)
  | resumed {x : ExecId} {rest : List Frame} (hstack : s.stack = .run (.dropping x) :: rest) :
      Acts s .finish (s.setStack (.run (.teardown x) :: rest))
  | fdNew (raw : RawFd) (events : EpollFlags) (fcntl ctl : Bool) (hu : s.inUserCode = true) :
      Acts s (.fdNew raw events fcntl ctl) (s.fdNew raw events fcntl ctl)
  | fdDrop (f : FdId) (hu : s.inUserCode = true) (hf : (s.fds f).live = true) :
      Acts s (.fdDrop f) (s.fdDrop f)
  | pollWith (f : FdId) (cx : Waker) (k : KernelAnswer) (hu : s.inUserCode = true)
      (hk : s.answers k) : Acts s (.pollWith f cx k) (s.pollWith k f cx).thread
  | interrupted (r : IoResult) {f : FdId} {cx : Waker} {rest : List Frame}
      (hstack : s.stack = .pollWith f cx :: rest) : Acts s (.closure r) s
  | closure (r : IoResult) {f : FdId} {cx : Waker} {rest : List Frame} {ew : EpollWaker}
      (hstack : s.stack = .pollWith f cx :: rest) (hr : (s.fds f).ew.pollWithReturn cx r = some ew) :
      Acts s (.closure r) ((s.setFd f { s.fds f with ew := ew, borrowed := false }).setStack rest)
  | foreignUpgrade (t : TaskId) (halive : s.alive t = true) :
      Acts s (.foreignUpgrade t) { s with waking := t :: s.waking }
  | foreignWrite (t : TaskId) : Acts s (.foreignWrite t) (s.foreignWrite t)
  | foreignBlockOn (b : BlockOnId) : Acts s (.foreignBlockOn b) (s.foreignBlockOn b)

/-- What a thread that has not panicked does in a step. -/
theorem acts_of_step {a : Action V} (h : s.step a = some s') :
    s.panicked = none ∧ Acts s a s' := by
  have hp : s.panicked = none := by
    unfold step at h
    split_ifs at h with hp
    simpa using hp
  refine ⟨hp, ?_⟩
  replace h := act_of_step h
  cases a with
  | go k =>
    simp only [act] at h
    split_ifs at h with hk
    exact .go k hk h
  | replace pipeWr =>
    simp only [act, replaceExecutor] at h
    split at h
    · rename_i hstack
      split at h
      · exact Option.some.inj h ▸ .replaceFailed hstack
      · split_ifs at h with hfd
        exact Option.some.inj h ▸ .replace _ hstack (by simpa using hfd)
    · simp at h
  | spawn priority =>
    obtain ⟨hu, rfl⟩ := call_eq_some.mp h
    exact .spawn priority hu
  | wake w k =>
    simp only [act] at h
    split_ifs at h with hw
    obtain ⟨hu, rfl⟩ := call_eq_some.mp h
    exact .wake w k hu hw.1 hw.2
  | abort t =>
    simp only [act] at h
    split_ifs at h with hh
    obtain ⟨hu, rfl⟩ := call_eq_some.mp h
    exact .abort t hu hh
  | handleResult t =>
    simp only [act] at h
    split_ifs at h with hh
    obtain ⟨hu, rfl⟩ := call_eq_some.mp h
    exact .handleResult t hu hh
  | handlePoll t w =>
    simp only [act] at h
    split_ifs at h with hh
    obtain ⟨hu, rfl⟩ := call_eq_some.mp h
    exact .handlePoll t w hu hh.1
  | dropHandle t =>
    simp only [act] at h
    split_ifs at h with hh
    obtain ⟨hu, rfl⟩ := call_eq_some.mp h
    exact .dropHandle t hu hh
  | shutdown =>
    obtain ⟨hu, rfl⟩ := call_eq_some.mp h
    exact .shutdown hu
  | run =>
    obtain ⟨hu, rfl⟩ := call_eq_some.mp h
    exact .run hu
  | blockOn =>
    obtain ⟨hu, rfl⟩ := call_eq_some.mp h
    exact .blockOn hu
  | pending =>
    simp only [act, Thread.pending] at h
    split at h
    · rename_i hstack
      exact Option.some.inj h ▸ .pending hstack
    · rename_i hstack
      exact Option.some.inj h ▸ .blockOnPending hstack
    · simp at h
  | ready v =>
    simp only [act, Thread.ready] at h
    split at h
    · rename_i hstack
      exact Option.some.inj h ▸ .ready v hstack
    · rename_i hstack
      exact Option.some.inj h ▸ .blockOnReady v hstack
    · simp at h
  | finish =>
    simp only [act, finish] at h
    split at h
    · rename_i hstack
      exact Option.some.inj h ▸ .handleWoken hstack
    · rename_i hstack
      exact Option.some.inj h ▸ .dropped hstack
    · rename_i hstack
      exact Option.some.inj h ▸ .resumed hstack
    · simp at h
  | fdNew raw events fcntl ctl =>
    obtain ⟨hu, rfl⟩ := call_eq_some.mp h
    exact .fdNew raw events fcntl ctl hu
  | fdDrop f =>
    simp only [act] at h
    split_ifs at h with hf
    obtain ⟨hu, rfl⟩ := call_eq_some.mp h
    exact .fdDrop f hu hf.1
  | pollWith f cx k =>
    simp only [act] at h
    split_ifs at h with hk
    obtain ⟨hu, rfl⟩ := call_eq_some.mp h
    exact .pollWith f cx k hu hk.2.2
  | closure r =>
    simp only [act, Thread.closure] at h
    split at h
    · rename_i hstack
      split at h
      · exact Option.some.inj h ▸ .interrupted r hstack
      · rename_i hr
        exact Option.some.inj h ▸ .closure r hstack hr
    · simp at h
  | foreignUpgrade t =>
    simp only [act] at h
    split_ifs at h with ht
    exact Option.some.inj h ▸ .foreignUpgrade t ht.2
  | foreignWrite t =>
    simp only [act] at h
    split_ifs at h
    exact Option.some.inj h ▸ .foreignWrite t
  | foreignBlockOn b =>
    simp only [act] at h
    split_ifs at h
    exact Option.some.inj h ▸ .foreignBlockOn b

/-- What library code does in a step. -/
lemma go_of_step {k : KernelAnswer} (h : s.step (.go k) = some s') :
    s.answers k ∧ s.go k = some s' := by
  cases (acts_of_step h).2 with
  | go k hk hgo => exact ⟨hk, hgo⟩

/-- Library code does not proceed while the top of the stack is code of the caller. -/
lemma inUserCode_of_go {k : KernelAnswer} (h : s.go k = some s') : s.inUserCode = false := by
  unfold go at h
  split at h
  · rename_i pc rest hstack
    cases pc <;> simp_all [goRun, inUserCode]
  · rename_i t pc rest hstack
    cases pc <;> simp_all [goRunTask, inUserCode]
  · rename_i b pc rest hstack
    cases pc <;> simp_all [goBlockOn, inUserCode]
  · simp at h

/-! ## Moves -/

/-- Where library code on top of the stack may go without touching the memory, other than by effects of
wakes.  `Jump s a s' f fs`: the action `a` changes `s` to `s'` and replaces the frame `f` by `fs`. -/
inductive Jump (s : Thread V) : Action V → Thread V → Frame → List Frame → Prop
  | enterRun {f : Frame} (hu : s.inUserCode = true) : Jump s .run s f [.run .select, f]
  | runIdle {k : KernelAnswer} (hfront : s.front = none) :
      Jump s (.go k) s (.run .select) [.run .checkSleepq]
  | afterTaskShutdown {k : KernelAnswer} (h : s.executor.shutdown = true) :
      Jump s (.go k) s (.run .afterTask) [.run .replace]
  | afterTask {k : KernelAnswer} : Jump s (.go k) s (.run .afterTask) [.run .waitZero]
  | sleepqEmpty {k : KernelAnswer} (h : s.queues.list (s.cur, .sleepq) = []) :
      Jump s (.go k) s (.run .checkSleepq) [.run .replace]
  | sleepqNonempty {k : KernelAnswer} (h : s.queues.list (s.cur, .sleepq) ≠ []) :
      Jump s (.go k) s (.run .checkSleepq) [.run .waitNone]
  | runWaited {k : KernelAnswer} {s' : Thread V} {pc : RunPc} (hpc : pc = .waitZero ∨ pc = .waitNone)
      (heff : Effects s s') : Jump s (.go k) s' (.run pc) [.run .select]
  | runFailed {k : KernelAnswer} {s' : Thread V} {pc : RunPc} (hpc : pc = .waitZero ∨ pc = .waitNone)
      (heff : Effects s s') : Jump s (.go k) s' (.run pc) []
  | replaceFailed : Jump s (.replace none) s (.run .replace) []
  | settled {k : KernelAnswer} {t : TaskId} (hq : s.isQueued t = true) :
      Jump s (.go k) s (.runTask t .settle) []
  | handleWake {k : KernelAnswer} {s' : Thread V} {t : TaskId} {w : Waker} {pc : TaskPc}
      (hpc : pc = .inHandleWake ∨ pc = .complete) (heff : Effects s s') :
      Jump s (.go k) s' (.runTask t (.wakeHandle w)) [.runTask t pc]
  | handleWoken {t : TaskId} : Jump s .finish s (.runTask t .inHandleWake) [.runTask t .complete]
  | dropped {t : TaskId} : Jump s .finish s (.runTask t .drop) []
  | resumed {x : ExecId} : Jump s .finish s (.run (.dropping x)) [.run (.teardown x)]
  | blockOnPending {b : BlockOnId} : Jump s .pending s (.blockOn b .polling) [.blockOn b .select]
  | blockOnReady {b : BlockOnId} {v : V} : Jump s (.ready v) s (.blockOn b .polling) []
  | blockOnIdle {k : KernelAnswer} {b : BlockOnId} (hfront : s.front = none) :
      Jump s (.go k) s (.blockOn b .select) [.blockOn b .waitNone]

/-- What a step does to a thread. -/
inductive Move (s : Thread V) : Action V → Thread V → Prop
  /-- Code of the caller makes a call that returns. -/
  | stay {a : Action V} {s' : Thread V} (hu : s.inUserCode = true) (heff : Effects s s') : Move s a s'
  | jump {a : Action V} {s' : Thread V} {f : Frame} {fs rest : List Frame}
      (hstack : s.stack = f :: rest) (hj : Jump s a s' f fs) : Move s a (s'.setStack (fs ++ rest))
  /-- A panic that is not about a task, or one of a handle of a task being polled. -/
  | crash {a : Action V} {s' : Thread V} {p : Panic} (heff : Effects s s')
      (hp : ∀ t, p.task = some t → p = .resultBorrowed t ∧ (s.tasks t).borrowed = true ∧
        (a = .handleResult t ∨ ∃ w, a = .handlePoll t w)) : Move s a (s'.panic p)
  /-- `run_task` panics. -/
  | selectCrash {k : KernelAnswer} {f f' : Frame} {rest : List Frame} {t : TaskId}
      (hstack : s.stack = f :: rest) (hf : f.loop = some f') (hfront : s.front = some t)
      (hb : (s.tasks t).borrowed = true) :
      Move s (.go k) (({ s with queues := s.queues.release t }.setStack (f' :: rest)).panic
        (.taskBorrowed t))
  /-- A poll of a task begins. -/
  | select {k : KernelAnswer} {f f' : Frame} {rest : List Frame} {t : TaskId}
      (hstack : s.stack = f :: rest) (hf : f.loop = some f') (hfront : s.front = some t)
      (hb : (s.tasks t).borrowed = false) :
      Move s (.go k) (((({ s with queues := s.queues.release t } : Thread V).setTask t
        { s.tasks t with borrowed := true }).setStack (.runTask t .polling :: f' :: rest)).emit
          (.polled t))
  /-- The future of a `block_on` is polled again. -/
  | repoll {k : KernelAnswer} {s' : Thread V} {b : BlockOnId} {pc : BlockOnPc} {rest : List Frame}
      (hstack : s.stack = .blockOn b pc :: rest) (hpc : pc = .waitZero ∨ pc = .waitNone)
      (heff : Effects s s') :
      Move s (.go k) ((s'.setStack (.blockOn b .polling :: rest)).emit (.blockOnPolled b))
  | pending {t : TaskId} {rest : List Frame} (hstack : s.stack = .runTask t .polling :: rest) :
      Move s .pending ((s.setTask t { s.tasks t with borrowed := false }).setStack
        (.runTask t .settle :: rest))
  | sleep {k : KernelAnswer} {t : TaskId} {rest : List Frame}
      (hstack : s.stack = .runTask t .settle :: rest) (hq : s.isQueued t = false) :
      Move s (.go k) ((s.sleep t).setStack rest)
  | ready {t : TaskId} {rest : List Frame} {v : V} (hstack : s.stack = .runTask t .polling :: rest) :
      Move s (.ready v) (((s.setTask t
        { s.tasks t with output := some v, handleWaker := .noop }).setStack
          (.runTask t (.wakeHandle (s.tasks t).handleWaker) :: rest)).emit (.ready t))
  | complete {k : KernelAnswer} {t : TaskId} {fs rest : List Frame}
      (hstack : s.stack = .runTask t .complete :: rest) (hfs : fs = [] ∨ fs = [.runTask t .drop]) :
      Move s (.go k) (((s.setTask t
        { s.tasks t with hasCompleted := true, borrowed := false }).setStack (fs ++ rest)).emit
          (.completed t))
  | replace {pipeWr : RawFd} {rest : List Frame} (hstack : s.stack = .run .replace :: rest)
      (hfd : s.pipeOf pipeWr = none) :
      Move s (.replace (some pipeWr))
        (({ s with cur := s.cur + 1 }.setExec (s.cur + 1) (Executor.new pipeWr)).setStack
          (.run (.teardown s.cur) :: rest))
  | discard {k : KernelAnswer} {x : ExecId} {q : QueueName} {t : TaskId} {pc : RunPc}
      {rest : List Frame} (hstack : s.stack = .run (.teardown x) :: rest)
      (hq : s.queues.home t = some (x, q)) (hpc : pc = .teardown x ∨ pc = .dropping x) :
      Move s (.go k)
        ({ s with queues := s.queues.release t, log := .discarded t :: s.log }.setStack
          (.run pc :: rest))
  | close {k : KernelAnswer} {x : ExecId} {rest : List Frame}
      (hstack : s.stack = .run (.teardown x) :: rest) :
      Move s (.go k) (((s.setExec x { s.execs x with isOpen := false }).setStack rest).emit
        (.ran x (s.execs x).shutdown))
  | spawn {priority : Priority} (hu : s.inUserCode = true) :
      Move s (.spawn priority) (s.spawn priority)
  | abort {t : TaskId} (hu : s.inUserCode = true) (hh : (s.tasks t).handle = true) :
      Move s (.abort t) (s.abort t)
  /-- The handle of a task takes its output, stores a waker, or is dropped. -/
  | handle {a : Action V} {t : TaskId} {e : ExecutorTask V} (hu : s.inUserCode = true)
      (hh : (s.tasks t).handle = true)
      (he : e = { s.tasks t with
        handleWaker := e.handleWaker, output := e.output, handle := e.handle }) :
      Move s a (s.setTask t e)
  | shutdown (hu : s.inUserCode = true) :
      Move s .shutdown (s.setExec s.cur { s.executor with shutdown := true })
  | blockOn (hu : s.inUserCode = true) : Move s .blockOn s.enterBlockOn
  | fdNew {raw : RawFd} {events : EpollFlags} {fcntl ctl : Bool} (hu : s.inUserCode = true) :
      Move s (.fdNew raw events fcntl ctl) (s.fdNew raw events fcntl ctl)
  | fdDrop {f : FdId} (hu : s.inUserCode = true) (hlive : (s.fds f).live = true) :
      Move s (.fdDrop f) (s.fdDrop f)
  | enterPollWith {f : FdId} {cx : Waker} {k : KernelAnswer} (hu : s.inUserCode = true) :
      Move s (.pollWith f cx k)
        ((s.setFd f { s.fds f with borrowed := true }).setStack (.pollWith f cx :: s.stack))
  | closure {r : IoResult} {f : FdId} {cx : Waker} {ew : EpollWaker} {rest : List Frame}
      (hstack : s.stack = .pollWith f cx :: rest) :
      Move s (.closure r) ((s.setFd f { s.fds f with ew := ew, borrowed := false }).setStack rest)
  | foreignUpgrade {t : TaskId} (halive : s.alive t = true) :
      Move s (.foreignUpgrade t) { s with waking := t :: s.waking }
  | foreignWrite {t : TaskId} : Move s (.foreignWrite t) (s.foreignWrite t)
  | foreignBlockOn {b : BlockOnId} : Move s (.foreignBlockOn b) (s.foreignBlockOn b)

/-- The next runnable task is the front of the run queues. -/
lemma highestPriorityRunnableTask_eq (s : Thread V) :
    s.highestPriorityRunnableTask =
      s.front.map fun t => (t, { s with queues := s.queues.release t }) := by
  simp only [highestPriorityRunnableTask, front, Family.pop]
  cases (s.queues.list (s.cur, .runqHigh)).head? <;>
    cases (s.queues.list (s.cur, .runqNormal)).head? <;>
      cases (s.queues.list (s.cur, .runqLow)).head? <;> rfl

/-- The next task of a replaced executor is in one of its queues. -/
lemma popReplaced_eq_some {x : ExecId} {t : TaskId} (h : s.popReplaced x = some (t, s')) :
    (∃ q, s.queues.home t = some (x, q)) ∧
      s' = { s with queues := s.queues.release t, log := .discarded t :: s.log } := by
  simp only [popReplaced, Option.map_eq_some_iff, Option.or_eq_some_iff] at h
  obtain ⟨⟨u, F⟩, hpop, hr⟩ := h
  obtain ⟨rfl, rfl⟩ : u = t ∧ _ = s' := by simpa using hr
  have key : ∀ q, s.queues.pop (x, q) = some (u, F) →
      (∃ q, s.queues.home u = some (x, q)) ∧ F = s.queues.release u := by
    intro q hq
    obtain ⟨hhead, rfl⟩ := Family.pop_eq_some_iff.mp hq
    exact ⟨⟨q, Family.home_of_head? hhead⟩, rfl⟩
  have hall : (∃ q, s.queues.home u = some (x, q)) ∧ F = s.queues.release u := by
    rcases hpop with h | ⟨-, h | ⟨-, h | ⟨-, h⟩⟩⟩
    · exact key _ h
    · exact key _ h
    · exact key _ h
    · exact key _ h
  exact ⟨hall.1, by rw [hall.2]⟩

/-- A loop that takes the next runnable task. -/
lemma move_of_select {k : KernelAnswer} {f f' : Frame} {rest : List Frame} {t : TaskId}
    (hstack : s.stack = f :: rest) (hf : f.loop = some f') (hfront : s.front = some t) :
    Move s (.go k)
      ((({ s with queues := s.queues.release t } : Thread V).setStack (f' :: rest)).runTask t) := by
  unfold runTask
  split_ifs with hb
  · exact .selectCrash hstack hf hfront hb
  · exact .select hstack hf hfront (by simpa [setStack] using hb)

/-- Every step of `run` is a move. -/
lemma move_of_goRun {k : KernelAnswer} {pc : RunPc} {rest : List Frame}
    (hstack : s.stack = .run pc :: rest) (h : s.goRun k rest pc = some s') : Move s (.go k) s' := by
  cases pc with
  | select =>
    simp only [goRun, highestPriorityRunnableTask_eq] at h
    cases hfront : s.front with
    | none =>
      simp only [hfront, Option.map_none, Option.some.injEq] at h
      exact h ▸ .jump hstack (.runIdle hfront)
    | some t =>
      simp only [hfront, Option.map_some, Option.some.injEq] at h
      exact h ▸ move_of_select hstack rfl hfront
  | afterTask =>
    simp only [goRun] at h
    split_ifs at h with hs
    · exact Option.some.inj h ▸ .jump hstack (.afterTaskShutdown hs)
    · exact Option.some.inj h ▸ .jump hstack .afterTask
  | checkSleepq =>
    simp only [goRun, List.isEmpty_iff] at h
    split_ifs at h with hs
    · exact Option.some.inj h ▸ .jump hstack (.sleepqEmpty hs)
    · exact Option.some.inj h ▸ .jump hstack (.sleepqNonempty hs)
  | waitZero | waitNone =>
    have hwait := epollWait_effects s k
    have hpanic := epollWait_panicked s k
    simp only [goRun] at h
    cases hk : s.epollWait k with
    | ok s₁ =>
      simp only [hk, Option.some.injEq, Outcome.memory] at h hwait
      exact h ▸ .jump hstack (.runWaited (by simp) hwait)
    | err s₁ =>
      simp only [hk, Option.some.injEq, Outcome.memory] at h hwait
      exact h ▸ .jump hstack (.runFailed (by simp) hwait)
    | panic p s₁ =>
      simp only [hk, Option.some.injEq, Outcome.memory] at h hwait
      exact h ▸ .crash hwait (by simp [hpanic p (by simp [hk, Outcome.panicked])])
  | replace | dropping x => simp [goRun] at h
  | teardown x =>
    simp only [goRun] at h
    split at h
    · rename_i t s₁ hpop
      obtain ⟨⟨q, hq⟩, rfl⟩ := popReplaced_eq_some hpop
      split_ifs at h
      · obtain rfl := Option.some.inj h
        have hmove : Move s (.go k) ({ s with
            queues := s.queues.release t, log := .discarded t :: s.log }.setStack
              (.run (.teardown x) :: rest)) := .discard hstack hq (.inl rfl)
        rwa [← hstack] at hmove
      · exact Option.some.inj h ▸ .discard hstack hq (.inr rfl)
    · exact Option.some.inj h ▸ .close hstack

/-- Every step of `run_task` is a move. -/
lemma move_of_goRunTask {k : KernelAnswer} {t : TaskId} {pc : TaskPc} {rest : List Frame}
    (hstack : s.stack = .runTask t pc :: rest) (h : s.goRunTask k t rest pc = some s') :
    Move s (.go k) s' := by
  cases pc with
  | settle =>
    simp only [goRunTask] at h
    split_ifs at h with hq
    · exact Option.some.inj h ▸ .jump hstack (.settled hq)
    · exact Option.some.inj h ▸ .sleep hstack (by simpa using hq)
  | wakeHandle w =>
    have hwake := wake_effects s k w
    have hpanic := wake_panicked s k w
    have key : ∀ s₁, Effects s s₁ → ∀ pc : TaskPc, pc = .inHandleWake ∨ pc = .complete →
        Move s (.go k) (s₁.setStack (.runTask t pc :: rest)) := fun s₁ heff pc hpc =>
      .jump hstack (.handleWake hpc heff)
    simp only [goRunTask] at h
    cases hk : s.wake k w with
    | ok s₁ | err s₁ =>
      simp only [hk, Outcome.memory] at h hwake
      cases w <;> exact Option.some.inj h ▸ key s₁ hwake _ (by simp)
    | panic p s₁ =>
      simp only [hk, Option.some.injEq, Outcome.memory] at h hwake
      exact h ▸ .crash hwake (by simp [hpanic p (by simp [hk, Outcome.panicked])])
  | complete =>
    simp only [goRunTask] at h
    split_ifs at h
    · exact Option.some.inj h ▸ .complete hstack (.inl rfl)
    · exact Option.some.inj h ▸ .complete hstack (.inr rfl)
  | polling | inHandleWake | drop => simp [goRunTask] at h

/-- Every step of `block_on` is a move. -/
lemma move_of_goBlockOn {k : KernelAnswer} {b : BlockOnId} {pc : BlockOnPc} {rest : List Frame}
    (hstack : s.stack = .blockOn b pc :: rest) (h : s.goBlockOn k b rest pc = some s') :
    Move s (.go k) s' := by
  cases pc with
  | select =>
    simp only [goBlockOn, highestPriorityRunnableTask_eq] at h
    cases hfront : s.front with
    | none =>
      simp only [hfront, Option.map_none, Option.some.injEq] at h
      exact h ▸ .jump hstack (.blockOnIdle hfront)
    | some t =>
      simp only [hfront, Option.map_some, Option.some.injEq] at h
      exact h ▸ move_of_select hstack rfl hfront
  | waitZero | waitNone =>
    have hwait := epollWait_effects s k
    have hpanic := epollWait_panicked s k
    simp only [goBlockOn] at h
    cases hk : s.epollWait k with
    | ok s₁ =>
      simp only [hk, Option.some.injEq, Outcome.memory] at h hwait
      exact h ▸ .repoll hstack (by simp) hwait
    | err s₁ =>
      simp only [hk, Option.some.injEq, Outcome.memory] at h hwait
      exact h ▸ .crash hwait (by simp [Panic.task])
    | panic p s₁ =>
      simp only [hk, Option.some.injEq, Outcome.memory] at h hwait
      exact h ▸ .crash hwait (by simp [hpanic p (by simp [hk, Outcome.panicked])])
  | polling => simp [goBlockOn] at h

/-- Every step of library code is a move. -/
lemma move_of_go {k : KernelAnswer} (h : s.go k = some s') : Move s (.go k) s' := by
  unfold go at h
  split at h
  · rename_i hstack
    exact move_of_goRun hstack h
  · rename_i hstack
    exact move_of_goRunTask hstack h
  · rename_i hstack
    exact move_of_goBlockOn hstack h
  · simp at h

/-- An outcome is its memory, or a panic in it. -/
lemma outcome_thread (o : Outcome V) :
    (o.panicked = none ∧ o.thread = o.memory) ∨
      ∃ p, o.panicked = some p ∧ o.thread = o.memory.panic p := by
  cases o with
  | ok s | err s => exact .inl ⟨rfl, rfl⟩
  | panic p s => exact .inr ⟨p, rfl, rfl⟩

/-- A call that only has effects of wakes. -/
lemma move_of_outcome {a : Action V} {o : Outcome V} (hu : s.inUserCode = true)
    (heff : Effects s o.memory) (hpanic : ∀ p ∈ o.panicked, p.task = none) : Move s a o.thread := by
  rcases outcome_thread o with ⟨-, h⟩ | ⟨p, hp, h⟩
  · exact h ▸ .stay hu heff
  · exact h ▸ .crash heff (by simp [hpanic p hp])

/-- `poll_with` is a move. -/
lemma move_of_pollWith {f : FdId} {cx : Waker} {k : KernelAnswer} (hu : s.inUserCode = true) :
    Move s (.pollWith f cx k) (s.pollWith k f cx).thread := by
  simp only [pollWith]
  split_ifs
  · exact .crash .refl (by simp [Panic.task])
  · split
    · exact .stay hu (.single .setWaker)
    · exact move_of_outcome hu (.head .setWaker (wake_effects _ k cx)) (wake_panicked _ k cx)
    · exact .enterPollWith hu

/-- `Handle::result` is a move. -/
lemma move_of_handleResult {t : TaskId} (hu : s.inUserCode = true)
    (hh : (s.tasks t).handle = true) :
    Move s (.handleResult t) (s.handleResult t) := by
  unfold handleResult
  split_ifs with hb
  · exact .crash .refl (by simp [Panic.task, hb])
  · exact .handle hu hh rfl

/-- `Handle::poll` is a move. -/
lemma move_of_handlePoll {t : TaskId} {w : Waker} (hu : s.inUserCode = true)
    (hh : (s.tasks t).handle = true) :
    Move s (.handlePoll t w) (s.handlePoll t w) := by
  unfold handlePoll
  split_ifs with hb
  · exact .crash .refl (by simp [Panic.task, hb])
  · split
    · exact .handle hu hh rfl
    · exact .handle hu hh rfl

/-- Every step of a thread is a move. -/
theorem move_of_step {a : Action V} (h : s.step a = some s') :
    s.panicked = none ∧ Move s a s' := by
  obtain ⟨hp, hacts⟩ := acts_of_step h
  refine ⟨hp, ?_⟩
  cases hacts with
  | go k hk hgo => exact move_of_go hgo
  | replaceFailed hstack => exact .jump hstack .replaceFailed
  | replace fd hstack hfd => exact .replace hstack hfd
  | spawn priority hu => exact .spawn hu
  | wake w k hu hw hk => exact move_of_outcome hu (wake_effects s k w) (wake_panicked s k w)
  | abort t hu hh => exact .abort hu hh
  | handleResult t hu hh => exact move_of_handleResult hu hh
  | handlePoll t w hu hh => exact move_of_handlePoll hu hh
  | dropHandle t hu hh => exact .handle hu hh rfl
  | shutdown hu => exact .shutdown hu
  | run hu =>
    cases hstack : s.stack with
    | nil => simp [inUserCode, hstack] at hu
    | cons f rest => exact .jump hstack (.enterRun hu)
  | blockOn hu => exact .blockOn hu
  | pending hstack => exact .pending hstack
  | blockOnPending hstack => exact .jump hstack .blockOnPending
  | ready v hstack => exact .ready hstack
  | blockOnReady v hstack => exact .jump hstack .blockOnReady
  | handleWoken hstack => exact .jump hstack .handleWoken
  | dropped hstack => exact .jump hstack .dropped
  | resumed hstack => exact .jump hstack .resumed
  | fdNew raw events fcntl ctl hu => exact .fdNew hu
  | fdDrop f hu hf => exact .fdDrop hu hf
  | pollWith f cx k hu hk => exact move_of_pollWith hu
  | interrupted r hstack => exact .stay (by simp [inUserCode, hstack]) .refl
  | closure r hstack hr => exact .closure hstack
  | foreignUpgrade t halive => exact .foreignUpgrade halive
  | foreignWrite t => exact .foreignWrite
  | foreignBlockOn b => exact .foreignBlockOn

end Thread

end Epox

import Epox.Executor.Lifecycle

/-!
# The result of a task

A task that returns `Poll::Ready` stores its output in a cell, from which `Handle::result` and
`Handle::poll` take it, wakes the waker that the last pending poll of the handle has left, and then sets
`has_completed`.  An observer (`HandleView`) of one task notes what the calls of its handle have answered
and which wakers `run_task` has woken, by what the wakes leave in the history.

The results hold for every task that is in no run queue when its `has_completed` is set.  A task that is
in one then is polled again, and may return `Poll::Ready` again.
-/

namespace Epox

/-- What an observer knows of a task and its handle; the newest comes first. -/
structure HandleView (V : Type) where
  /-- What calls of `result` and `poll` have answered before `has_completed` was set. -/
  before : List (Option V)
  /-- What they have answered since. -/
  after : List (Option V)
  /-- The waker of the last poll before that which returned `Poll::Pending`. -/
  pending : Waker
  /-- What the future has returned. -/
  values : List V
  /-- The wakes that `run_task` has made of the task, and what was in the cell then. -/
  woken : List (Event × Option V)
  deriving DecidableEq

/-- Nothing has happened. -/
def HandleView.start (V : Type) : HandleView V where
  before := []
  after := []
  pending := .noop
  values := []
  woken := []

/-- A call of `result` or `poll` has answered. -/
def HandleView.answer {V : Type} (g : HandleView V) (completed : Bool) (r : Option V) : HandleView V :=
  if completed then { g with after := r :: g.after } else { g with before := r :: g.before }

/-- A poll with the waker has answered. -/
def HandleView.poll {V : Type} (g : HandleView V) (completed : Bool) (r : Option V) (w : Waker) :
    HandleView V :=
  match completed, r with
  | false, none => { g.answer false none with pending := w }
  | completed, r => g.answer completed r

namespace Thread

variable {V : Type} {s s' : Thread V} {t : TaskId}

/-- The wakers that a step has invoked, by what it has added to the history. -/
def invocations (s s' : Thread V) : List Event :=
  (s'.log.take (s'.log.length - s.log.length)).filter Event.isInvocation

/-- How the observer of the task follows a step. -/
def observeHandle (t : TaskId) (s : Thread V) (a : Action V) (s' : Thread V) (g : HandleView V) :
    HandleView V :=
  let task := s.tasks t
  match a, s.stack with
  | .handleResult u, _ =>
    if u = t ∧ task.borrowed = false then g.answer task.hasCompleted task.output else g
  | .handlePoll u w, _ =>
    if u = t ∧ task.borrowed = false then g.poll task.hasCompleted task.output w else g
  | .ready v, .runTask u .polling :: _ => if u = t then { g with values := v :: g.values } else g
  | .go _, .runTask u _ :: _ =>
    if u = t then { g with woken := (s.invocations s').map (·, task.output) ++ g.woken } else g
  | _, _ => g

/-! ## The wakes of a step -/

/-- The wakers invoked, from what a step has added to the history. -/
lemma invocations_of_log {l : List Event} (h : s'.log = l ++ s.log) :
    s.invocations s' = l.filter Event.isInvocation := by
  simp [invocations, h]

/-- Enqueueing a task invokes no waker. -/
lemma enqueue_log (s : Thread V) (t : TaskId) :
    ∃ l, (s.enqueue t).log = l ++ s.log ∧ l.filter Event.isInvocation = [] := by
  unfold enqueue
  split_ifs
  · exact ⟨[], rfl, rfl⟩
  · exact ⟨[.enqueued t], rfl, rfl⟩

/-- Reading from the pipe invokes no waker. -/
lemma wakeFromPipe_log (h : s.wakeFromPipe = some s') :
    ∃ l, s'.log = l ++ s.log ∧ l.filter Event.isInvocation = [] := by
  unfold wakeFromPipe at h
  split at h
  · simp at h
  · split at h
    · obtain rfl := Option.some.inj h
      exact ⟨[], rfl, rfl⟩
    · rename_i rest t hpipe
      obtain rfl := Option.some.inj h
      dsimp only
      split_ifs
      · exact enqueue_log (s.setExec s.cur _) t
      · exact ⟨[], rfl, rfl⟩

/-- The delivery of an event invokes no waker: it enqueues the task itself. -/
lemma deliver_log {f : FdId} {e : EpollFlags} (h : s.deliver f e = some s') :
    ∃ l, s'.log = l ++ s.log ∧ l.filter Event.isInvocation = [] := by
  dsimp only [deliver] at h
  split_ifs at h
  · obtain rfl := Option.some.inj h
    exact ⟨[], rfl, rfl⟩
  · split at h
    · rename_i t _
      obtain rfl := Option.some.inj h
      split_ifs
      · exact enqueue_log (s.setFd f _) t
      · exact ⟨[], rfl, rfl⟩
    · obtain rfl := Option.some.inj h
      exact ⟨[], rfl, rfl⟩

/-- The loop over the events invokes no waker. -/
lemma wakeup_log (evs : List EpollEvent) (s : Thread V) :
    ∃ l, (s.wakeup evs).memory.log = l ++ s.log ∧ l.filter Event.isInvocation = [] := by
  induction evs generalizing s with
  | nil => exact ⟨[], rfl, rfl⟩
  | cons e evs ih =>
    have key : ∀ s₁ : Thread V, (∃ l, s₁.log = l ++ s.log ∧ l.filter Event.isInvocation = []) →
        ∃ l, (s₁.wakeup evs).memory.log = l ++ s.log ∧ l.filter Event.isInvocation = [] := by
      rintro s₁ ⟨l₁, hl₁, hnone₁⟩
      obtain ⟨l₂, hl₂, hnone₂⟩ := ih s₁
      refine ⟨l₂ ++ l₁, by rw [hl₂, hl₁, List.append_assoc], ?_⟩
      rw [List.filter_append, hnone₁, hnone₂, List.append_nil]
    cases e with
    | pipe =>
      simp only [wakeup]
      split
      · rename_i s₁ hs₁
        exact key s₁ (wakeFromPipe_log hs₁)
      · exact ⟨[], rfl, rfl⟩
    | fd f e =>
      simp only [wakeup]
      split
      · rename_i s₁ hs₁
        exact key s₁ (deliver_log hs₁)
      · exact ⟨[], rfl, rfl⟩

/-- `epoll_wait` invokes no waker. -/
lemma epollWait_log (s : Thread V) (k : KernelAnswer) :
    ∃ l, (s.epollWait k).memory.log = l ++ s.log ∧ l.filter Event.isInvocation = [] := by
  unfold epollWait
  split_ifs
  · exact ⟨[], rfl, rfl⟩
  · split
    · exact wakeup_log _ s
    · exact ⟨[], rfl, rfl⟩
    · exact ⟨[], rfl, rfl⟩

/-- A wake invokes its waker, unless it panics. -/
lemma wake_log (s : Thread V) (k : KernelAnswer) (w : Waker) :
    ∃ l, (s.wake k w).memory.log = l ++ s.log ∧
      l.filter Event.isInvocation = (s.wake k w).panicked.elim w.event.toList fun _ => [] := by
  cases w with
  | task t =>
    -- The task is enqueued, and then its wake is over.
    have key : ∀ s₁ : Thread V, (∃ l, s₁.log = l ++ s.log ∧ l.filter Event.isInvocation = []) →
        ∃ l, ((s₁.enqueue t).emit (.woken t)).log = l ++ s.log ∧
          l.filter Event.isInvocation = [.woken t] := by
      rintro s₁ ⟨l₁, hl₁, hnone₁⟩
      obtain ⟨l₂, hl₂, hnone₂⟩ := enqueue_log s₁ t
      refine ⟨.woken t :: l₂ ++ l₁, by simp [emit, hl₂, hl₁], ?_⟩
      rw [List.filter_append, List.filter_cons, hnone₁, hnone₂]
      rfl
    simp only [wake, taskWake]
    split_ifs with halive hpipe hb
    · have hwait := epollWait_log s k
      cases ho : s.epollWait k with
      | ok s₁ | err s₁ =>
        rw [ho] at hwait
        exact key s₁ hwait
      | panic p s₁ =>
        rw [ho] at hwait
        exact hwait
    · exact key s ⟨[], rfl, rfl⟩
    · cases hw : s.write (s.tasks t).pipeWr (some t) with
      | some s₁ => exact ⟨[.woken t], by simp [Outcome.memory, emit, (write_written hw).log], rfl⟩
      | none => exact ⟨[], rfl, rfl⟩
    · exact ⟨[.woken t], rfl, rfl⟩
  | blockOn pipeWr b =>
    simp only [wake, blockOnWake]
    split_ifs with hpipe
    · exact ⟨[.blockOnWoken b], rfl, rfl⟩
    · cases hw : s.write pipeWr none with
      | some s₁ => exact ⟨[.blockOnWoken b], by simp [Outcome.memory, emit, (write_written hw).log], rfl⟩
      | none => exact ⟨[], rfl, rfl⟩
  | noop => exact ⟨[], rfl, rfl⟩
  | other j => exact ⟨[.otherWoken j], rfl, rfl⟩

/-! ## What does not concern the handle -/

/-- The step does not concern the output and the handle of the task. -/
structure KeepsHandle (t : TaskId) (s s' : Thread V) : Prop where
  output : (s'.tasks t).output = (s.tasks t).output
  handleWaker : (s'.tasks t).handleWaker = (s.tasks t).handleWaker
  completed : (s'.tasks t).hasCompleted = (s.tasks t).hasCompleted
  nTasks : s'.nTasks = s.nTasks
  ready : .ready t ∈ s'.log ↔ .ready t ∈ s.log
  stack : ∀ w, .runTask t (.wakeHandle w) ∈ s'.stack ↔ .runTask t (.wakeHandle w) ∈ s.stack

/-- The tasks stay as they are. -/
lemma keepsHandle_of_tasks (htasks : s'.tasks = s.tasks) (hn : s'.nTasks = s.nTasks)
    (hlog : .ready t ∈ s'.log ↔ .ready t ∈ s.log)
    (hstack : ∀ w, .runTask t (.wakeHandle w) ∈ s'.stack ↔ .runTask t (.wakeHandle w) ∈ s.stack) :
    KeepsHandle t s s' :=
  ⟨by rw [htasks], by rw [htasks], by rw [htasks], hn, hlog, hstack⟩

/-- A panic does not concern the handle. -/
lemma keepsHandle_of_panic (s : Thread V) (p : Panic) : KeepsHandle t s (s.panic p) :=
  keepsHandle_of_tasks rfl rfl .rfl fun _ => .rfl

/-- A task changes in other respects. -/
lemma keepsHandle_of_setTask {u : TaskId} {e : ExecutorTask V}
    (htasks : s'.tasks = Function.update s.tasks u e) (hn : s'.nTasks = s.nTasks)
    (he : u = t → e.output = (s.tasks t).output ∧ e.handleWaker = (s.tasks t).handleWaker ∧
      e.hasCompleted = (s.tasks t).hasCompleted)
    (hlog : .ready t ∈ s'.log ↔ .ready t ∈ s.log)
    (hstack : ∀ w, .runTask t (.wakeHandle w) ∈ s'.stack ↔ .runTask t (.wakeHandle w) ∈ s.stack) :
    KeepsHandle t s s' := by
  have htask : s'.tasks t = if t = u then e else s.tasks t := by
    rw [htasks, Function.update_apply]
  by_cases hu : t = u
  · obtain ⟨houtput, hwaker, hc⟩ := he hu.symm
    rw [if_pos hu] at htask
    exact ⟨htask ▸ houtput, htask ▸ hwaker, htask ▸ hc, hn, hlog, hstack⟩
  · rw [if_neg hu] at htask
    exact ⟨by rw [htask], by rw [htask], by rw [htask], hn, hlog, hstack⟩

/-- The effects of wakes do not concern the handle. -/
lemma Effects.keepsHandle (h : Effects s s') : KeepsHandle t s s' := by
  have hs := h.untouched
  obtain ⟨l, hl, hwake⟩ := hs.log
  refine keepsHandle_of_tasks hs.tasks hs.nTasks ?_ fun w => by rw [hs.stack]
  rw [hl, List.mem_append, or_iff_right]
  exact fun hm => by simpa [Event.isWake] using hwake _ hm

/-- Changes in a row. -/
lemma KeepsHandle.trans {s₁ : Thread V} (h : KeepsHandle t s s₁) (h' : KeepsHandle t s₁ s') :
    KeepsHandle t s s' where
  output := h'.output.trans h.output
  handleWaker := h'.handleWaker.trans h.handleWaker
  completed := h'.completed.trans h.completed
  nTasks := h'.nTasks.trans h.nTasks
  ready := h'.ready.trans h.ready
  stack w := (h'.stack w).trans (h.stack w)

/-- A call that only has effects of wakes. -/
lemma keepsHandle_of_outcome {o : Outcome V} (h : Effects s o.memory) : KeepsHandle t s o.thread := by
  have hkeep : KeepsHandle t s o.memory := h.keepsHandle
  rcases outcome_thread o with ⟨-, he⟩ | ⟨p, -, he⟩
  · exact he ▸ hkeep
  · rw [he]
    exact hkeep.trans (keepsHandle_of_tasks rfl rfl .rfl fun _ => .rfl)

/-- The task whose handle is being woken, or whose `has_completed` is set next, by the step of library code
on top of the stack. -/
def closingNext (s : Thread V) : Option TaskId :=
  match s.stack with
  | .runTask t (.wakeHandle _) :: _ | .runTask t .complete :: _ => some t
  | _ => none

/-- A jump to frames in which no handle is woken. -/
lemma Jump.keepsHandle {k : KernelAnswer} {f : Frame} {fs rest : List Frame} (hj : Jump s (.go k) s' f fs)
    (hstack : s.stack = f :: rest) (ht : s.closingNext ≠ some t) :
    KeepsHandle t s (s'.setStack (fs ++ rest)) := by
  have heff : KeepsHandle t s s' := hj.effects.keepsHandle
  refine ⟨heff.output, heff.handleWaker, heff.completed, heff.nTasks, heff.ready, fun w => ?_⟩
  rw [hstack]
  cases hj with
  | @handleWake _ _ u w' pc hpc heff =>
    have hu : t ≠ u := fun hu => ht (by simp [closingNext, hstack, hu])
    rcases hpc with rfl | rfl <;> simp [setStack, hu]
  | _ => simp [setStack]

/-- A step of library code that neither wakes the handle nor completes the task. -/
lemma keepsHandle_of_go {k : KernelAnswer} (h : s.go k = some s') (ht : s.closingNext ≠ some t) :
    KeepsHandle t s s' := by
  have hnot := inUserCode_of_go h
  cases move_of_go h with
  | stay hu heff => simp [hnot] at hu
  | handle hu => simp [hnot] at hu
  | jump hstack hj => exact hj.keepsHandle hstack ht
  | @crash _ s₁ p heff hp =>
    exact (heff.keepsHandle (t := t)).trans (keepsHandle_of_tasks rfl rfl .rfl fun _ => .rfl)
  | @selectCrash _ f f' rest u hstack hf hfront hb =>
    refine keepsHandle_of_tasks rfl rfl .rfl fun w => ?_
    rcases Frame.of_loop hf with ⟨rfl, rfl⟩ | ⟨b, rfl, rfl⟩ <;> simp [Thread.panic, setStack, hstack]
  | @select _ f f' rest u hstack hf hfront hb =>
    refine keepsHandle_of_setTask (u := u) rfl rfl (fun hu => hu ▸ ⟨rfl, rfl, rfl⟩) ?_ fun w => ?_
    · simp [emit, setStack, setTask]
    · rcases Frame.of_loop hf with ⟨rfl, rfl⟩ | ⟨b, rfl, rfl⟩ <;> simp [emit, setStack, hstack]
  | @repoll _ s₁ b pc rest hstack hpc heff =>
    have hkeep : KeepsHandle t s s₁ := heff.keepsHandle
    refine ⟨hkeep.output, hkeep.handleWaker, hkeep.completed, hkeep.nTasks, ?_, fun w => ?_⟩
    · simpa [emit, setStack] using hkeep.ready
    · simp [emit, setStack, hstack]
  | sleep hstack hq =>
    exact keepsHandle_of_tasks rfl rfl .rfl fun w => by simp [setStack, hstack]
  | @complete _ u fs rest hstack hfs =>
    have hu : u ≠ t := fun hu => ht (by simp [closingNext, hstack, hu])
    refine keepsHandle_of_setTask (u := u) rfl rfl (fun he => absurd he hu) ?_ fun w => ?_
    · simp [emit, setStack, setTask]
    · rcases hfs with rfl | rfl <;> simp [emit, setStack, hstack]
  | discard hstack hq hpc =>
    exact keepsHandle_of_tasks rfl rfl (by simp [setStack]) fun w => by simp [setStack, hstack]
  | close hstack =>
    exact keepsHandle_of_tasks rfl rfl (by simp [emit, setStack, setExec]) fun w => by
      simp [emit, setStack, hstack]

/-- `poll_with` does not concern the handle. -/
lemma keepsHandle_of_pollWith (s : Thread V) (k : KernelAnswer) (f : FdId) (cx : Waker) :
    KeepsHandle t s (s.pollWith k f cx).thread := by
  simp only [pollWith]
  split_ifs
  · exact keepsHandle_of_tasks rfl rfl .rfl fun _ => .rfl
  · split
    · exact keepsHandle_of_tasks rfl rfl .rfl fun _ => .rfl
    · exact keepsHandle_of_outcome (.head .setWaker (wake_effects _ k cx))
    · exact keepsHandle_of_tasks rfl rfl .rfl fun w => by simp [Outcome.thread, setStack]

/-- An action that may concern the handle of the task. -/
def TouchesHandle (s : Thread V) (t : TaskId) : Action V → Prop
  | .go _ => s.closingNext = some t
  | .handleResult u | .handlePoll u _ => u = t
  | .ready _ => ∃ rest, s.stack = .runTask t .polling :: rest
  | .spawn _ => True
  | _ => False

/-- All other steps do not concern it. -/
lemma keepsHandle_of_step {a : Action V} (h : s.step a = some s') (ht : ¬ s.TouchesHandle t a) :
    KeepsHandle t s s' := by
  obtain ⟨hn, hacts⟩ := acts_of_step h
  cases hacts with
  | go k hk hgo => exact keepsHandle_of_go hgo ht
  | spawn => exact absurd trivial ht
  | handleResult u =>
    unfold handleResult
    split_ifs
    · exact keepsHandle_of_tasks rfl rfl .rfl fun _ => .rfl
    · exact keepsHandle_of_setTask rfl rfl (fun hu => absurd hu ht) .rfl fun _ => .rfl
  | handlePoll u w =>
    unfold handlePoll
    split_ifs
    · exact keepsHandle_of_tasks rfl rfl .rfl fun _ => .rfl
    · split
      · exact keepsHandle_of_setTask rfl rfl (fun hu => absurd hu ht) .rfl fun _ => .rfl
      · exact keepsHandle_of_setTask rfl rfl (fun hu => absurd hu ht) .rfl fun _ => .rfl
  | @ready v u rest hstack =>
    have hu : u ≠ t := fun hu => ht ⟨rest, hu ▸ hstack⟩
    refine keepsHandle_of_setTask (u := u) rfl rfl (fun he => absurd he hu) ?_ fun w => ?_
    · simp [emit, setStack, setTask, hu.symm]
    · simp [emit, setStack, hstack, hu.symm]
  | wake w k => exact keepsHandle_of_outcome (wake_effects s k w)
  | pollWith f cx k => exact keepsHandle_of_pollWith s k f cx
  | dropHandle u =>
    exact keepsHandle_of_setTask (u := u) rfl rfl (fun hu => hu ▸ ⟨rfl, rfl, rfl⟩) .rfl fun _ => .rfl
  | pending hstack =>
    exact keepsHandle_of_setTask rfl rfl (fun hu => hu ▸ ⟨rfl, rfl, rfl⟩) .rfl fun w => by
      simp [setStack, hstack]
  | fdNew raw events fcntl ctl =>
    have hs := fdNew_steady s raw events fcntl ctl
    refine keepsHandle_of_tasks hs.tasks hs.nTasks ?_ fun w => by rw [hs.stack]
    rcases fdNew_cases s raw events fcntl ctl with he | ⟨fd, interest, -, -, he | he⟩
    · rw [he]
    · rw [he]
      exact .rfl
    · rw [he]
      simp [fdDrop, emit, setFd, epollDel, setExec, addFd]
  | fdDrop f =>
    have hs := fdDrop_steady s f
    refine keepsHandle_of_tasks hs.tasks hs.nTasks ?_ fun w => by rw [hs.stack]
    simp [fdDrop, emit, setFd, epollDel, setExec]
  | abort u => exact keepsHandle_of_tasks rfl rfl (by simp [abort]) fun _ => .rfl
  | blockOn =>
    exact keepsHandle_of_tasks rfl rfl (by simp [enterBlockOn, emit]) fun w => by
      simp [enterBlockOn, emit]
  | run => exact keepsHandle_of_tasks rfl rfl .rfl fun w => by simp [setStack]
  | shutdown | foreignUpgrade u => exact keepsHandle_of_tasks rfl rfl .rfl fun _ => .rfl
  | interrupted => exact keepsHandle_of_tasks rfl rfl .rfl fun _ => .rfl
  | foreignWrite u =>
    have hkeep : KeepsHandle t s { s with waking := s.waking.erase u } :=
      keepsHandle_of_tasks rfl rfl .rfl fun _ => .rfl
    exact hkeep.trans (foreignWrite_effects s u).keepsHandle
  | foreignBlockOn b => exact (foreignBlockOn_effects s b).keepsHandle
  | replaceFailed hstack | replace fd hstack | blockOnPending hstack | blockOnReady v hstack
  | handleWoken hstack | dropped hstack | resumed hstack | closure r hstack =>
    exact keepsHandle_of_tasks rfl rfl .rfl fun w => by simp [setStack, hstack]

/-! ## The observer and the task -/

/-- The frames of a task being polled are one. -/
lemma Wf.frame_eq (h : s.Wf) {f g : Frame} {rest : List Frame} (hstack : s.stack = f :: rest)
    (hg : g ∈ s.stack) (hft : f.held = some t) (hgt : g.held = some t) : g = f := by
  have hnodup := h.nodup
  rw [running_cons hstack, hft, Option.toList_some, List.singleton_append, List.nodup_cons] at hnodup
  rcases List.mem_cons.mp (hstack ▸ hg) with rfl | hg
  · rfl
  · exact absurd (List.mem_filterMap.mpr ⟨g, hg, hgt⟩) hnodup.1

/-- A future that is being polled has not returned `Poll::Ready` yet. -/
lemma not_ready_of_polling (hwf : s.Wf) (hf : s.abs.FinishedTask t) {rest : List Frame}
    (hstack : s.stack = .runTask t .polling :: rest) : .ready t ∉ s.log := by
  intro hready
  have hrun : t ∈ s.running := by
    rw [running_cons hstack]
    simp [Frame.held]
  rcases hf.ready hready with hc | hm
  · simp [hf.running (by rwa [abs_running])] at hc
  · obtain ⟨g, hg, hgt⟩ := List.mem_filterMap.mp hm
    obtain rfl := hwf.frame_eq hstack hg rfl (by rw [Frame.held_eq, hgt]; rfl)
    simp [Frame.poll] at hgt

/-- A task that has returned `Poll::Ready` and has not completed is borrowed. -/
lemma borrowed_of_ready (hwf : s.Wf) (hf : s.abs.FinishedTask t) (hready : .ready t ∈ s.log)
    (hc : (s.tasks t).hasCompleted = false) : (s.tasks t).borrowed = true := by
  rcases hf.ready hready with hc' | hm
  · exact absurd (hc.symm.trans hc') (by simp)
  · obtain ⟨g, hg, hgt⟩ := List.mem_filterMap.mp hm
    refine (hwf.borrowed t).mpr (List.mem_filterMap.mpr ⟨g, hg, ?_⟩)
    cases g with
    | runTask u pc => cases pc <;> simp_all [Frame.poll, Frame.borrows]
    | _ => simp [Frame.poll] at hgt

/-- What the observer has noted, as long as the task has not returned `Poll::Ready`, until its
`has_completed` is set, and from then on. -/
structure Told (t : TaskId) (s : Thread V) (g : HandleView V) : Prop where
  before : ∀ r ∈ g.before, r = none
  ready : .ready t ∈ s.log ↔ g.values ≠ []
  running : g.values = [] → g.woken = [] ∧ g.after = [] ∧
    (t < s.nTasks → (s.tasks t).output = none ∧ (s.tasks t).handleWaker = g.pending) ∧
    (s.nTasks ≤ t → g.pending = .noop)
  closing : g.values ≠ [] → (s.tasks t).hasCompleted = false →
    ∃ v, g.values = [v] ∧ (s.tasks t).output = some v ∧ g.after = [] ∧
      (g.woken = [] ∧ .runTask t (.wakeHandle g.pending) ∈ s.stack ∨
        g.woken = g.pending.event.toList.map (·, some v) ∧ ∀ w, .runTask t (.wakeHandle w) ∉ s.stack)
  completed : (s.tasks t).hasCompleted = true → ∃ v, g.values = [v] ∧
    g.woken = g.pending.event.toList.map (·, some v) ∧
      ((s.tasks t).output = some v ∧ g.after = [] ∨
        (s.tasks t).output = none ∧ ∃ n, g.after = List.replicate n none ++ [some v])

/-- A step that does not concern the handle. -/
lemma Told.keep {g : HandleView V} (h : Told t s g) (hk : KeepsHandle t s s') : Told t s' g where
  before := h.before
  ready := hk.ready.trans h.ready
  running hvalues := by
    rw [hk.nTasks, hk.output, hk.handleWaker]
    exact h.running hvalues
  closing hvalues hc := by
    obtain ⟨v, hv, houtput, hafter, hwoken⟩ := h.closing hvalues (hk.completed ▸ hc)
    refine ⟨v, hv, hk.output.trans houtput, hafter, ?_⟩
    rcases hwoken with ⟨hwoken, hmem⟩ | ⟨hwoken, hmem⟩
    · exact .inl ⟨hwoken, (hk.stack _).mpr hmem⟩
    · exact .inr ⟨hwoken, fun w hw => hmem w ((hk.stack w).mp hw)⟩
  completed hc := by
    rw [hk.output]
    exact h.completed (hk.completed ▸ hc)

/-- A call of the handle answers nothing until the task has completed, and then once what the future has
returned. -/
lemma Told.answer {g : HandleView V} (h : Told t s g) (hwf : s.Wf) (hf : s.abs.FinishedTask t)
    (hb : (s.tasks t).borrowed = false) (ht : t < s.nTasks) :
    ((s.tasks t).hasCompleted = false → (s.tasks t).output = none ∧ g.values = [] ∧
      ∀ r ∈ (g.answer false none).before, r = none) ∧
    ((s.tasks t).hasCompleted = true → ∃ v, g.values = [v] ∧
      g.woken = g.pending.event.toList.map (·, some v) ∧
        ∃ n, (g.answer true (s.tasks t).output).after = List.replicate n none ++ [some v]) := by
  refine ⟨fun hc => ?_, fun hc => ?_⟩
  · have hvalues : g.values = [] := by
      by_contra hne
      have hborrowed := borrowed_of_ready hwf hf (h.ready.mpr hne) hc
      simp [hb] at hborrowed
    refine ⟨((h.running hvalues).2.2.1 ht).1, hvalues, fun r hr => ?_⟩
    rcases List.mem_cons.mp hr with rfl | hr
    · rfl
    · exact h.before r hr
  · obtain ⟨v, hv, hwoken, ⟨houtput, hafter⟩ | ⟨houtput, n, hafter⟩⟩ := h.completed hc
    · exact ⟨v, hv, hwoken, 0, by simp [HandleView.answer, houtput, hafter]⟩
    · exact ⟨v, hv, hwoken, n + 1, by simp [HandleView.answer, houtput, hafter, List.replicate_succ]⟩

/-- The cell of the task is taken, or a waker is left in its place. -/
lemma Told.take {g g' : HandleView V} (h : Told t s g) (hwf : s.Wf) (hf : s.abs.FinishedTask t)
    (hb : (s.tasks t).borrowed = false) (ht : t < s.nTasks) {w : Waker}
    (hg : g' = g.answer (s.tasks t).hasCompleted (s.tasks t).output ∧ w = (s.tasks t).handleWaker ∨
      g' = g.poll (s.tasks t).hasCompleted (s.tasks t).output w)
    (hlog : s'.log = s.log) (houtput' : (s'.tasks t).output = none)
    (hcompleted : (s'.tasks t).hasCompleted = (s.tasks t).hasCompleted)
    (hwaker : (s.tasks t).hasCompleted = false → (s'.tasks t).handleWaker = w)
    (hnTasks : s'.nTasks = s.nTasks) : Told t s' g' := by
  obtain ⟨hopen, hclosed⟩ := h.answer hwf hf hb ht
  cases hc : (s.tasks t).hasCompleted with
  | false =>
    obtain ⟨houtput, hvalues, hbefore⟩ := hopen hc
    obtain ⟨hwoken, hafter, hcell, -⟩ := h.running hvalues
    have hg' : g' = { g.answer false none with pending := w } := by
      rcases hg with ⟨rfl, rfl⟩ | rfl
      · rw [hc, houtput, (hcell ht).2]
        rfl
      · rw [hc, houtput]
        rfl
    subst hg'
    refine ⟨hbefore, hlog ▸ h.ready, fun _ => ⟨hwoken, hafter, fun _ => ⟨houtput', hwaker hc⟩, fun hle => ?_⟩,
      fun hne => absurd hvalues hne, fun hc' => ?_⟩
    · exact absurd (hnTasks ▸ ht) hle.not_gt
    · simp [hcompleted, hc] at hc'
  | true =>
    obtain ⟨v, hv, hwoken, n, hafter⟩ := hclosed hc
    have hg' : g' = g.answer true (s.tasks t).output := by
      rcases hg with ⟨rfl, -⟩ | rfl
      · rw [hc]
      · rw [hc]
        cases (s.tasks t).output <;> rfl
    subst hg'
    refine ⟨h.before, hlog ▸ h.ready, fun hnil => ?_, fun _ hc' => ?_,
      fun _ => ⟨v, hv, hwoken, .inr ⟨houtput', n, hafter⟩⟩⟩
    · exact absurd hnil (by rw [show (g.answer true _).values = g.values from rfl, hv]; simp)
    · simp [hcompleted, hc] at hc'

/-- The future returns `Poll::Ready`. -/
lemma Told.setReady {g : HandleView V} (h : Told t s g) (hwf : s.Wf) (hf : s.abs.FinishedTask t)
    {rest : List Frame} (hstack : s.stack = .runTask t .polling :: rest) (v : V) :
    Told t (((s.setTask t { s.tasks t with output := some v, handleWaker := .noop }).setStack
      (.runTask t (.wakeHandle (s.tasks t).handleWaker) :: rest)).emit (.ready t))
        { g with values := v :: g.values } := by
  have hvalues : g.values = [] := by
    by_contra hne
    exact not_ready_of_polling hwf hf hstack (h.ready.mpr hne)
  have hrun : t ∈ s.running := by
    rw [running_cons hstack]
    simp [Frame.held]
  have ht := hwf.ids t (alive_of_running hrun)
  obtain ⟨hwoken, hafter, hcell, -⟩ := h.running hvalues
  have hc : (s.tasks t).hasCompleted = false := hf.running (by rwa [abs_running])
  refine ⟨h.before, by simp [emit], fun hnil => absurd hnil (List.cons_ne_nil _ _), fun _ _ => ?_,
    fun hc' => ?_⟩
  · refine ⟨v, by rw [hvalues], by simp [emit, setStack, setTask], hafter, .inl ⟨hwoken, ?_⟩⟩
    rw [(hcell ht).2]
    exact List.mem_cons_self
  · simp [emit, setStack, setTask, hc] at hc'

/-- A task is spawned. -/
lemma Told.spawn {g : HandleView V} (h : Told t s g) (hr : s.abs.Reached) (p : Priority) :
    Told t (s.spawn p) g := by
  rw [Thread.spawn, enqueue_of_not_completed (by simp)]
  by_cases hn : t = s.nTasks
  · -- The task is new: the observer has seen nothing of it.
    subst hn
    have hvalues : g.values = [] := by
      by_contra hne
      exact (hr.lt_of_ready (h.ready.mpr hne)).ne rfl
    obtain ⟨hwoken, hafter, -, hpending⟩ := h.running hvalues
    refine ⟨h.before, by simpa using h.ready, fun _ => ⟨hwoken, hafter, fun _ => ?_, fun hle => ?_⟩,
      fun hne => absurd hvalues hne, by simp⟩
    · simp [hpending le_rfl]
    · exact absurd hle (by simp)
  · refine ⟨h.before, by simpa using h.ready, fun hvalues => ?_, ?_, ?_⟩
    · obtain ⟨hwoken, hafter, hcell, hpending⟩ := h.running hvalues
      refine ⟨hwoken, hafter, fun ht => ?_, fun hle => hpending (by simp only at hle; omega)⟩
      simpa [hn] using hcell (lt_of_le_of_ne (Nat.lt_succ_iff.mp ht) hn)
    · simpa [hn] using h.closing
    · simpa [hn] using h.completed

/-- The handle is woken. -/
lemma Told.wakeHandle {g : HandleView V} (h : Told t s g) (hwf : s.Wf) (hf : s.abs.FinishedTask t)
    (hr : s.abs.Reached) {k : KernelAnswer} {w : Waker} {rest : List Frame}
    (hstack : s.stack = .runTask t (.wakeHandle w) :: rest)
    (hs : s.goRunTask k t rest (.wakeHandle w) = some s') :
    Told t s' { g with woken := (s.invocations s').map (·, (s.tasks t).output) ++ g.woken } := by
  have hmem : Frame.runTask t (.wakeHandle w) ∈ s.stack := by simp [hstack]
  have hrun : t ∈ s.running := List.mem_filterMap.mpr ⟨_, hmem, rfl⟩
  have hready : .ready t ∈ s.log :=
    hr.ready_of_completed (.inr (List.mem_filterMap.mpr ⟨_, hmem, rfl⟩))
  have hvalues : g.values ≠ [] := h.ready.mp hready
  have hc : (s.tasks t).hasCompleted = false := hf.running (by rwa [abs_running])
  obtain ⟨v, hv, houtput, hafter, hwoken⟩ := h.closing hvalues hc
  obtain ⟨hwoken, rfl⟩ : g.woken = [] ∧ w = g.pending := by
    rcases hwoken with ⟨hwoken, hpending⟩ | ⟨-, hnot⟩
    · refine ⟨hwoken, ?_⟩
      have heq := hwf.frame_eq hstack hpending rfl rfl
      simpa using heq.symm
    · exact absurd hmem (hnot w)
  -- What the wake does changes neither the task nor the frames of others.
  have key : ∀ s₂ : Thread V, s₂.tasks = s.tasks → (.ready t ∈ s₂.log ↔ .ready t ∈ s.log) →
      (s.invocations s₂ = [] ∧ .runTask t (.wakeHandle g.pending) ∈ s₂.stack ∨
        s.invocations s₂ = g.pending.event.toList ∧ ∀ w, .runTask t (.wakeHandle w) ∉ s₂.stack) →
          Told t s₂ { g with woken := (s.invocations s₂).map (·, (s.tasks t).output) ++ g.woken } := by
    intro s₂ htasks hlog hstack₂
    refine ⟨h.before, hlog.trans h.ready, fun hnil => absurd hnil hvalues,
      fun _ _ => ⟨v, hv, htasks ▸ houtput, hafter, ?_⟩, fun hc' => ?_⟩
    · rw [hwoken, houtput, List.append_nil]
      rcases hstack₂ with ⟨hinv, hin⟩ | ⟨hinv, hout⟩
      · exact .inl ⟨by rw [hinv, List.map_nil], hin⟩
      · exact .inr ⟨by rw [hinv], hout⟩
    · rw [htasks, hc] at hc'
      simp at hc'
  have hrest : ∀ pc : TaskPc, (∀ w, pc ≠ .wakeHandle w) → ∀ w',
      Frame.runTask t (.wakeHandle w') ∉ Frame.runTask t pc :: rest := by
    intro pc hpc w' hm
    rcases List.mem_cons.mp hm with he | hm
    · exact hpc w' (by simpa using he.symm)
    · have hnodup := hwf.nodup
      rw [running_cons hstack, List.nodup_append] at hnodup
      exact hnodup.2.2 t (by simp [Frame.held]) t (List.mem_filterMap.mpr ⟨_, hm, rfl⟩) rfl
  have heff := wake_effects s k g.pending
  obtain ⟨l, hl, hinvoked⟩ := wake_log s k g.pending
  simp only [goRunTask] at hs
  cases hk : s.wake k g.pending with
  | ok s₁ | err s₁ =>
    simp only [hk, Outcome.memory, Outcome.panicked, Option.elim_none] at hs heff hl hinvoked
    have hkeep : KeepsHandle t s s₁ := heff.keepsHandle
    have hnext : ∀ pc : TaskPc, (∀ w, pc ≠ .wakeHandle w) → s₁.setStack (.runTask t pc :: rest) = s' →
        Told t s' { g with woken := (s.invocations s').map (·, (s.tasks t).output) ++ g.woken } := by
      intro pc hpc hs'
      subst hs'
      refine key _ heff.steady.tasks hkeep.ready (.inr ⟨?_, hrest pc hpc⟩)
      rw [← hinvoked]
      exact invocations_of_log hl
    split at hs
    · exact hnext .inHandleWake (by simp) (Option.some.inj hs)
    · exact hnext .complete (by simp) (Option.some.inj hs)
  | panic p s₁ =>
    simp only [hk, Outcome.memory, Outcome.panicked, Option.elim_some] at hs heff hl hinvoked
    obtain rfl := Option.some.inj hs
    have hkeep : KeepsHandle t s s₁ := heff.keepsHandle
    refine key _ heff.steady.tasks hkeep.ready (.inl ⟨?_, (hkeep.stack _).mpr hmem⟩)
    rw [← hinvoked]
    exact invocations_of_log hl

/-- `has_completed` is set. -/
lemma Told.complete {g : HandleView V} (h : Told t s g) (hwf : s.Wf) (hf : s.abs.FinishedTask t)
    (hr : s.abs.Reached) {k : KernelAnswer} {rest : List Frame}
    (hstack : s.stack = .runTask t .complete :: rest)
    (hs : s.goRunTask k t rest .complete = some s') :
    Told t s' { g with woken := (s.invocations s').map (·, (s.tasks t).output) ++ g.woken } := by
  have hmem : Frame.runTask t .complete ∈ s.stack := by simp [hstack]
  have hrun : t ∈ s.running := List.mem_filterMap.mpr ⟨_, hmem, rfl⟩
  have hready : .ready t ∈ s.log :=
    hr.ready_of_completed (.inr (List.mem_filterMap.mpr ⟨_, hmem, rfl⟩))
  have hc : (s.tasks t).hasCompleted = false := hf.running (by rwa [abs_running])
  obtain ⟨v, hv, houtput, hafter, hwoken⟩ := h.closing (h.ready.mp hready) hc
  have hwoken : g.woken = g.pending.event.toList.map (·, some v) := by
    rcases hwoken with ⟨-, hpending⟩ | ⟨hwoken, -⟩
    · have heq := hwf.frame_eq hstack hpending rfl rfl
      simp at heq
    · exact hwoken
  have key : ∀ stack, (((s.setTask t { s.tasks t with hasCompleted := true, borrowed := false }).setStack
      stack).emit (.completed t)) = s' →
        Told t s' { g with woken := (s.invocations s').map (·, (s.tasks t).output) ++ g.woken } := by
    intro stack hs'
    subst hs'
    have hinvoked : s.invocations (((s.setTask t { s.tasks t with
        hasCompleted := true, borrowed := false }).setStack stack).emit (.completed t)) = [] :=
      invocations_of_log (l := [.completed t]) rfl
    rw [hinvoked, List.map_nil, List.nil_append]
    exact
      { before := h.before
        ready := by simpa [emit, setStack, setTask] using h.ready
        running := fun hnil => absurd hnil (by rw [hv]; simp)
        closing := fun _ hc' => by simp [emit, setStack, setTask] at hc'
        completed := fun _ => ⟨v, hv, hwoken, .inl ⟨by simp [emit, setStack, setTask, houtput], hafter⟩⟩ }
  simp only [goRunTask] at hs
  split_ifs at hs
  · exact key rest (Option.some.inj hs)
  · exact key (.runTask t .drop :: rest) (Option.some.inj hs)

/-- The observer notes nothing of a step that does not concern the handle. -/
lemma observeHandle_eq {a : Action V} {g : HandleView V} (hs : s.step a = some s')
    (ht : ¬ s.TouchesHandle t a) : s.observeHandle t a s' g = g := by
  unfold observeHandle
  split
  · exact if_neg fun hu => ht hu.1
  · exact if_neg fun hu => ht hu.1
  · rename_i u rest hstack
    exact if_neg fun hu : u = t => ht ⟨rest, hu ▸ hstack⟩
  · rename_i k u pc rest hstack
    -- Of the steps of `run_task` only its last one, for a task that is pending, is left.
    by_cases hu : u = t
    · have hinvoked : s.invocations s' = [] := by
        obtain ⟨-, hgo⟩ := go_of_step hs
        simp only [go, hstack] at hgo
        cases pc with
        | settle =>
          obtain rfl := Option.some.inj hgo
          exact invocations_of_log (l := []) (by simp only [setStack]; split_ifs <;> rfl)
        | wakeHandle w => exact absurd (by simp [TouchesHandle, closingNext, hstack, hu]) ht
        | complete => exact absurd (by simp [TouchesHandle, closingNext, hstack, hu]) ht
        | polling | inHandleWake | drop => simp [goRunTask] at hgo
      simp [hu, hinvoked]
    · exact if_neg hu
  · rfl

/-- Every step in which the task completes quietly, if it does, keeps what the observer has noted. -/
lemma Told.step {g : HandleView V} {a : Action V} (h : Told t s g) (hwf : s.Wf)
    (hf : s.abs.FinishedTask t) (hr : s.abs.Reached) (hs : s.step a = some s') :
    Told t s' (s.observeHandle t a s' g) := by
  obtain ⟨hn, hacts⟩ := acts_of_step hs
  by_cases ht : s.TouchesHandle t a
  · cases hacts with
    | go k hk hgo =>
      simp only [TouchesHandle, closingNext] at ht
      split at ht
      · rename_i u w rest hstack
        obtain rfl := Option.some.inj ht
        simp only [go, hstack] at hgo
        simpa [observeHandle, hstack] using h.wakeHandle hwf hf hr hstack hgo
      · rename_i u rest hstack
        obtain rfl := Option.some.inj ht
        simp only [go, hstack] at hgo
        simpa [observeHandle, hstack] using h.complete hwf hf hr hstack hgo
      · simp at ht
    | spawn p hu => exact h.spawn hr p
    | handleResult u hu hh =>
      obtain rfl : u = t := ht
      have hlt := hwf.ids u (alive_of_handle hh)
      unfold handleResult observeHandle
      cases hb : (s.tasks u).borrowed with
      | true =>
        simpa [hb] using h.keep (keepsHandle_of_panic s _)
      | false =>
        simp only [hb, Bool.false_eq_true, if_false, and_self, if_true]
        exact h.take hwf hf hb hlt (.inl ⟨rfl, rfl⟩) rfl (by simp [setTask]) (by simp [setTask])
          (fun _ => by simp [setTask]) rfl
    | handlePoll u w hu hh =>
      obtain rfl : u = t := ht
      have hlt := hwf.ids u (alive_of_handle hh)
      unfold handlePoll observeHandle
      cases hb : (s.tasks u).borrowed with
      | true =>
        simpa [hb] using h.keep (keepsHandle_of_panic s _)
      | false =>
        simp only [hb, Bool.false_eq_true, if_false, and_self, if_true]
        cases houtput : (s.tasks u).output with
        | none =>
          refine h.take hwf hf hb hlt (.inr (by rw [houtput])) rfl ?_ ?_ (fun _ => ?_) rfl <;>
            simp [setTask]
        | some v =>
          -- The task has completed, so that the waker does not matter.
          have hc : (s.tasks u).hasCompleted ≠ false := fun hc => by
            simp [((h.answer hwf hf hb hlt).1 hc).1] at houtput
          refine h.take hwf hf hb hlt (.inr (by rw [houtput])) rfl ?_ ?_ (fun hc' => absurd hc' hc) rfl <;>
            simp [setTask]
    | @ready v u rest hstack =>
      obtain ⟨rest', hstack'⟩ := ht
      obtain ⟨hframe, rfl⟩ := List.cons.inj (hstack.symm.trans hstack')
      obtain rfl : u = t := (Frame.runTask.inj hframe).1
      simpa [observeHandle, hstack] using h.setReady hwf hf hstack v
    | blockOnReady v hstack =>
      obtain ⟨rest', hstack'⟩ := ht
      simp [hstack] at hstack'
    | _ => exact absurd ht id
  · rw [observeHandle_eq hs ht]
    exact h.keep (keepsHandle_of_step hs ht)

/-- A thread and what the observer knows. -/
abbrev Handled (V : Type) := Thread V × HandleView V

/-- In every run in which the task, when its `has_completed` is set, has not been enqueued since its latest
poll began: before that all calls of the handle find nothing; the future has returned one value; what
`run_task` has invoked is the waker of the last pending poll, once, when the value was in its cell; and the
first call after that takes the value, and no other. -/
theorem handle_answers {p : Handled V}
    (h : ReachableUnder (observe step (observeHandle t)) (fun p => p.1.IsStart ∧ p.2 = .start V)
      (fun p => CompletesQuietlyAt t p.1) p) :
    (∀ r ∈ p.2.before, r = none) ∧
    ((p.1.tasks t).hasCompleted = true → ∃ v, p.2.values = [v] ∧
      p.2.woken = p.2.pending.event.toList.map (·, some v) ∧
        (p.2.after = [] ∧ (p.1.tasks t).output = some v ∨
          ∃ n, p.2.after = List.replicate n none ++ [some v])) := by
  have key : Told t p.1 p.2 := by
    refine h.invariant (P := fun p => Told t p.1 p.2) ?_ fun p a p' hp ih _ hs => ?_
    · rintro ⟨s, g⟩ ⟨⟨pipeWr, pipeCapacity, -, rfl⟩, rfl⟩
      refine ⟨by simp [HandleView.start], by simp [Thread.start, HandleView.start],
        fun _ => ⟨rfl, rfl, fun ht => absurd ht (Nat.not_lt_zero t), fun _ => rfl⟩,
        fun hne => absurd rfl hne, fun hc => ?_⟩
      exact absurd hc Bool.false_ne_true
    · obtain ⟨hs, hg⟩ := observe_eq_some.mp hs
      have hquiet : QuietCompletion t p.1.log := quietAt_of_reachable (hp.under_of_observe fun _ _ hC => hC)
      have hr := abs_reached hp.of_observe
      rw [hg]
      exact ih.step (wf_of_reachable hp.of_observe) (hr.finishedTask hquiet) hr hs
  refine ⟨key.before, fun hc => ?_⟩
  obtain ⟨v, hv, hwoken, ⟨houtput, hafter⟩ | ⟨-, hafter⟩⟩ := key.completed hc
  · exact ⟨v, hv, hwoken, .inl ⟨hafter, houtput⟩⟩
  · exact ⟨v, hv, hwoken, .inr hafter⟩

/-- A task takes the result of another one, whose handle it has polled before. -/
theorem handle_answers_once : ∃ p : Handled ℕ,
    ReachableUnder (observe step (observeHandle 0)) (fun p => p.1.IsStart ∧ p.2 = .start ℕ)
      (fun p => CompletesQuietlyAt 0 p.1) p ∧
    p.2.before = [none] ∧ p.2.after = [none, some 7] ∧ p.2.woken = [(.woken 1, some 7)] ∧
      (∀ r ∈ p.2.before, r = none) ∧
      ∃ v, p.2.values = [v] ∧ p.2.woken = p.2.pending.event.toList.map (·, some v) ∧
        (p.2.after = [] ∧ (p.1.tasks 0).output = some v ∨
          ∃ n, p.2.after = List.replicate n none ++ [some v]) := by
  obtain ⟨p, hp, h⟩ := exists_observed (observeHandle 0) (.start ℕ) (fun p => CompletesQuietlyAt 0 p.1)
    [.spawn .normal, .spawn .normal, .handlePoll 0 (.task 1), .run, .go (.ok []), .ready 7,
      .go (.ok []), .go (.ok []), .go (.ok []), .go (.ok []), .go (.ok []), .handleResult 0,
      .handlePoll 0 .noop]
    (fun p => decide ((p.1.tasks 0).hasCompleted = true ∧ p.2.before = [none] ∧
      p.2.after = [none, some 7] ∧ p.2.woken = [(.woken 1, some 7)])) (by decide)
  obtain ⟨hc, hbefore, hafter, hwoken⟩ := of_decide_eq_true h
  obtain ⟨hnone, hgiven⟩ := handle_answers hp
  exact ⟨p, hp, hbefore, hafter, hwoken, hnone, hgiven hc⟩

/-- The task is woken by code that runs in its own poll. -/
def WakesItself (s : Thread V) (t : TaskId) : Action V → Prop
  | .wake w _ | .pollWith _ w _ => w = .task t ∧ t ∈ s.running
  | _ => False

instance (s : Thread V) (t : TaskId) (a : Action V) : Decidable (s.WakesItself t a) :=
  match a with
  | .wake w _ | .pollWith _ w _ => inferInstanceAs (Decidable (w = .task t ∧ t ∈ s.running))
  | .go _ | .replace _ | .spawn _ | .abort _ | .handleResult _ | .handlePoll _ _ | .dropHandle _
  | .shutdown | .run | .blockOn | .pending | .ready _ | .finish | .fdNew _ _ _ _ | .fdDrop _
  | .closure _ | .foreignUpgrade _ | .foreignWrite _ | .foreignBlockOn _ =>
    inferInstanceAs (Decidable False)

/-- A task never wakes itself, but another thread does, and a `block_on` in the task's last poll receives
that wake.  The task is polled again after it has completed, and its handle gives two results. -/
theorem handle_answers_twice : ∃ p : Handled ℕ,
    ReachableUnder (observe step (observeHandle 0)) (fun p => p.1.IsStart ∧ p.2 = .start ℕ)
      (fun p a => ¬ p.1.WakesItself 0 a) p ∧
    (p.1.tasks 0).hasCompleted = true ∧ p.2.after = [some 8, some 7] := by
  obtain ⟨p, hp, h⟩ := exists_observed (observeHandle 0) (.start ℕ) (fun p a => ¬ p.1.WakesItself 0 a)
    [.spawn .normal, .run, .go (.ok []), .blockOn, .pending, .go (.ok []), .foreignUpgrade 0,
      .foreignWrite 0, .go (.ok [.pipe]), .ready 0, .spawn .high, .ready 7, .go (.ok []), .go (.ok []),
      .go (.ok []), .go (.ok []), .go (.ok []), .handleResult 0, .pending, .go (.ok []), .go (.ok []),
      .go (.ok []), .go (.ok []), .wake (.task 1) (.ok []), .ready 8, .go (.ok []), .go (.ok []),
      .go (.ok []), .go (.ok []), .go (.ok []), .handleResult 0]
    (fun p => decide ((p.1.tasks 0).hasCompleted = true ∧ p.2.after = [some 8, some 7])) (by decide +kernel)
  exact ⟨p, hp, of_decide_eq_true h⟩

end Thread

end Epox

import Epox.Scheduler.Refinement

/-!
# The life of a task

What becomes of a task that has completed, or that has been aborted.  In both cases `enqueue` is the only
way back into a run queue, and it checks `has_completed` alone; so the results below say exactly which wakes
must not happen.
-/

namespace Epox

namespace Thread

variable {V : Type} {s s' : Thread V}

/-! ## Completed tasks -/

/-- The task whose `has_completed` is set next. -/
def completing (s : Thread V) : Option TaskId :=
  match s.stack with
  | .runTask t .complete :: _ => some t
  | _ => none

/-- When `has_completed` of a task is set next, that task has not been enqueued since its poll began, or
has been taken out again. -/
def CompletesQuietly (s : Thread V) (_ : Action V) : Prop :=
  ∀ t ∈ s.completing, ¬ EnqueuedNow t s.log

instance (s : Thread V) (a : Action V) : Decidable (CompletesQuietly s a) :=
  inferInstanceAs (Decidable (∀ t ∈ s.completing, ¬ EnqueuedNow t s.log))

/-- When `has_completed` of the task is set next, it has not been enqueued since its poll began, or has
been taken out again. -/
def CompletesQuietlyAt (t : TaskId) (s : Thread V) (_ : Action V) : Prop :=
  t ∈ s.completing → ¬ EnqueuedNow t s.log

instance (t : TaskId) (s : Thread V) (a : Action V) : Decidable (CompletesQuietlyAt t s a) :=
  inferInstanceAs (Decidable (t ∈ s.completing → ¬ EnqueuedNow t s.log))

/-- The effects of wakes complete no task. -/
lemma Effects.quiet {t : TaskId} (h : Effects s s') (hq : QuietCompletion t s.log) :
    QuietCompletion t s'.log := by
  induction h with
  | refl => exact hq
  | tail _ h ih =>
    cases h with
    | receive hpipe halive hc =>
      rw [enqueue_of_not_completed (by exact hc)]
      exact ⟨by simp, ih⟩
    | enqueue halive hc =>
      rw [enqueue_of_not_completed hc]
      exact ⟨by simp, ih⟩
    | woken | blockOnWoken | otherWoken => exact ⟨by simp, ih⟩
    | read | setWaker | write => exact ih

/-- Creating an `Fd` completes no task. -/
lemma fdNew_quiet {t : TaskId} {raw : RawFd} {events : EpollFlags} {fcntl ctl : Bool}
    (hq : QuietCompletion t s.log) : QuietCompletion t (s.fdNew raw events fcntl ctl).log := by
  rcases fdNew_cases s raw events fcntl ctl with h | ⟨fd, interest, -, -, h | h⟩ <;> rw [h]
  · exact hq
  · exact hq
  · exact ⟨by simp, hq⟩

/-- A step that completes the task quietly keeps the history one in which it does. -/
lemma Move.quiet {t : TaskId} {a : Action V} (hm : Move s a s') (hC : CompletesQuietlyAt t s a)
    (hq : QuietCompletion t s.log) : QuietCompletion t s'.log := by
  cases hm with
  | stay hu heff => exact heff.quiet hq
  | jump hstack hj => exact hj.effects.quiet hq
  | crash heff hp => exact heff.quiet hq
  | repoll hstack hpc heff => exact ⟨by simp, heff.quiet hq⟩
  | @complete k u fs rest hstack hfs =>
    refine ⟨fun hu => ?_, hq⟩
    obtain rfl : u = t := by simpa using hu
    exact hC (by simp [completing, hstack])
  | spawn hu =>
    rw [Thread.spawn, enqueue_of_not_completed (by simp)]
    exact ⟨by simp, by simp, hq⟩
  | fdNew hu => exact fdNew_quiet hq
  | foreignWrite => exact (foreignWrite_effects s _).quiet hq
  | foreignBlockOn => exact (foreignBlockOn_effects s _).quiet hq
  | select | ready | discard | close | abort | blockOn | fdDrop => exact ⟨by simp, hq⟩
  | _ => exact hq

/-- In a run whose steps complete the task quietly, the history is one in which it does. -/
lemma quietAt_of_reachable {t : TaskId} (h : ReachableUnder step IsStart (CompletesQuietlyAt t) s) :
    QuietCompletion t s.log := by
  refine h.invariant (P := fun s => QuietCompletion t s.log) ?_ ?_
  · rintro s ⟨pipeWr, pipeCapacity, -, rfl⟩
    trivial
  · intro s a s' _ hq hC hs
    exact (move_of_step hs).2.quiet hC hq

/-- In a run whose steps complete tasks quietly, the history is one in which they do. -/
lemma quiet_of_reachable (h : ReachableUnder step IsStart CompletesQuietly s) :
    QuietCompletions s.log :=
  quietCompletions_iff.mpr fun t => quietAt_of_reachable (h.mono fun _ _ hC ht => hC t ht)

/-- A task that has completed is in no queue, and no future is polled after it has returned
`Poll::Ready`, in every run in which no task completes that has been enqueued since its last poll
began. -/
theorem completed_task_stays_out (h : ReachableUnder step IsStart CompletesQuietly s) (t : TaskId) :
    ((s.tasks t).hasCompleted = true → s.isQueued t = false) ∧ ¬ PolledAfterReady t s.log := by
  have hf := (abs_reached h.reachable).finished (quiet_of_reachable h)
  refine ⟨fun hc => ?_, hf.polled t⟩
  simpa [isQueued, abs] using hf.home t hc

/-- A task that completes without having been woken, in a run with another task. -/
theorem completed_task_stays_out_of_queues : ∃ s : Thread Unit,
    ReachableUnder step IsStart CompletesQuietly s ∧ (s.tasks 0).hasCompleted = true ∧
      s.isQueued 0 = false ∧ ¬ PolledAfterReady 0 s.log := by
  obtain ⟨s, hs, h⟩ := exists_reachableUnder (V := Unit) CompletesQuietly
    [.spawn .normal, .spawn .low, .run, .go (.ok []), .wake (.task 1) (.ok []), .ready (),
      .go (.ok []), .go (.ok []), .go (.ok []), .go (.ok []), .go (.ok []), .wake (.task 0) (.ok [])]
    (fun s => (s.tasks 0).hasCompleted) (by decide)
  obtain ⟨hq, hp⟩ := completed_task_stays_out hs 0
  exact ⟨s, hs, h, hq h, hp⟩

/-- A task that wakes itself in its last poll is polled again after it has completed. -/
theorem completed_task_polled_again : ∃ s : Thread Unit, Reachable step IsStart s ∧
    (s.tasks 0).hasCompleted = true ∧ PolledAfterReady 0 s.log := by
  obtain ⟨s, hs, h⟩ := exists_reachable (V := Unit)
    [.spawn .normal, .run, .go (.ok []), .wake (.task 0) (.ok []), .ready (), .go (.ok []),
      .go (.ok []), .go (.ok []), .go (.ok []), .go (.ok [])]
    (fun s => (s.tasks 0).hasCompleted && decide (PolledAfterReady 0 s.log)) (by decide)
  exact ⟨s, hs, by simpa using h⟩

/-- Setting `has_completed` leaves the task in a run queue exactly if it was enqueued during its
last poll. -/
theorem isQueued_of_complete (h : Reachable step IsStart s) {k : KernelAnswer} {t : TaskId}
    (ht : t ∈ s.completing) (hs : s.step (.go k) = some s') :
    (s'.tasks t).hasCompleted = true ∧ (s'.isQueued t = true ↔ EnqueuedNow t s.log) := by
  have hr := abs_reached h
  have hpanic : s.abs.crashed = false := by
    simpa [abs] using (move_of_step hs).1
  obtain ⟨rest, hstack⟩ : ∃ rest, s.stack = .runTask t .complete :: rest := by
    unfold completing at ht
    split at ht <;> simp_all
  have hrun : t ∈ s.abs.running := by
    rw [abs_running, running_cons hstack]
    simp [Frame.held]
  have hiff : s.queues.home t ≠ none ↔ EnqueuedNow t s.log :=
    ⟨hr.marked t hrun, hr.queued hpanic t⟩
  have hafter : s'.queues = s.queues ∧ (s'.tasks t).hasCompleted = true := by
    have hgo := (go_of_step hs).2
    simp only [go, hstack, goRunTask] at hgo
    split_ifs at hgo <;> obtain rfl := Option.some.inj hgo <;>
      exact ⟨rfl, by simp [emit, Thread.setStack, Thread.setTask]⟩
  rw [isQueued, hafter.1, Option.isSome_iff_ne_none]
  exact ⟨hafter.2, hiff⟩

/-! ## Aborted tasks -/

/-- A task that is not enqueued after it was aborted is not polled again. -/
theorem aborted_task_not_polled (h : Reachable step IsStart s) {t : TaskId}
    (hne : ¬ EnqueuedAfterAbort t s.log) : ¬ PolledAfterAbort t s.log :=
  ((abs_reached h).stopped hne).polled

/-- A sleeping task is aborted by another one and not woken again. -/
theorem aborted_task_not_polled_while_asleep : ∃ s : Thread Unit, Reachable step IsStart s ∧
    .aborted 0 ∈ s.log ∧ ¬ PolledAfterAbort 0 s.log := by
  obtain ⟨s, hs, h⟩ := exists_reachable (V := Unit)
    [.spawn .normal, .spawn .normal, .run, .go (.ok []), .pending, .go (.ok []), .go (.ok []),
      .go (.ok []), .go (.ok []), .abort 0, .ready (), .go (.ok []), .go (.ok []), .go (.ok [])]
    (fun s => decide (.aborted 0 ∈ s.log) && decide (¬ EnqueuedAfterAbort 0 s.log)) (by decide)
  rw [Bool.and_eq_true, decide_eq_true_iff, decide_eq_true_iff] at h
  exact ⟨s, hs, h.1, aborted_task_not_polled hs h.2⟩

/-- A sleeping task whose handle is kept is polled again when it is woken after its abort. -/
theorem aborted_task_polled_again : ∃ s : Thread Unit, Reachable step IsStart s ∧
    (s.tasks 0).handle = true ∧ PolledAfterAbort 0 s.log := by
  obtain ⟨s, hs, h⟩ := exists_reachable (V := Unit)
    [.spawn .normal, .spawn .normal, .run, .go (.ok []), .pending, .go (.ok []), .go (.ok []),
      .go (.ok []), .go (.ok []), .abort 0, .wake (.task 0) (.ok []), .pending, .go (.ok []),
      .go (.ok []), .go (.ok []), .go (.ok [])]
    (fun s => (s.tasks 0).handle && decide (PolledAfterAbort 0 s.log)) (by decide)
  exact ⟨s, hs, by simpa using h⟩

end Thread

end Epox

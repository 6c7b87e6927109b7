import Epox.Executor.WellFormed
import Epox.Scheduler.Invariants

/-!
# The executor refines the scheduler

`Thread.abs` forgets everything about a thread that the abstract scheduler does not know.  Every effect
of a wake is at most one move of the scheduler (`Effect.refines`), every step of a thread a finite
sequence of moves (`Move.refines`), and so every reachable thread is a state of a run of the scheduler
(`abs_reached`).
-/

namespace Epox

namespace Thread

open Relation

variable {V : Type} {s s' : Thread V}

/-! ## The abstraction -/

/-- What the scheduler knows of a thread. -/
def abs (s : Thread V) : Sched where
  cur := s.cur
  queues := s.queues
  exec t := (s.tasks t).exec
  priority t := (s.tasks t).priority
  completed t := (s.tasks t).hasCompleted
  handle t := (s.tasks t).handle
  nTasks := s.nTasks
  polls := s.stack.filterMap Frame.poll
  waking := s.waking
  pipe := s.executor.pipe
  log := s.log
  crashed := s.panicked.isSome

/-- The tasks being polled are the tasks held on the stack. -/
lemma abs_running (s : Thread V) : s.abs.running = s.running := by
  simp only [Sched.running, abs, running, List.map_filterMap]
  exact congrArg (List.filterMap · s.stack) (funext fun f => f.held_eq.symm)

/-- The references to a task. -/
lemma abs_alive {t : TaskId} : s.abs.alive t ↔ s.alive t = true := by
  rw [alive_iff, Sched.alive, abs_running]
  rfl

/-- Changing the current executor shows only in its pipe. -/
lemma abs_setExec_cur (s : Thread V) (e : Executor) :
    (s.setExec s.cur e).abs = { s.abs with pipe := e.pipe } := by
  simp [abs, setExec, executor]

/-- Changing another executor does not show. -/
lemma abs_setExec_of_ne {x : ExecId} (e : Executor) (hx : x ≠ s.cur) :
    (s.setExec x e).abs = s.abs := by
  simp [abs, setExec, executor, hx.symm]

/-- No move of the scheduler. -/
lemma refines_refl {σ σ' : Sched} (he : σ' = σ) : ReflTransGen Sched.Step σ σ' :=
  he ▸ .refl

/-- What is read of a task is as before if the new task agrees with the old one. -/
lemma read_update {β : Type} {t : TaskId} {e : ExecutorTask V} (f : ExecutorTask V → β)
    (h : f e = f (s.tasks t)) :
    (fun u => f (Function.update s.tasks t e u)) = fun u => f (s.tasks u) := by
  funext u
  by_cases hu : u = t
  · simp [hu, h]
  · simp [hu]

/-- What is read of a task after it was replaced. -/
lemma read_update_eq {β : Type} {t : TaskId} {e : ExecutorTask V} (f : ExecutorTask V → β) :
    (fun u => f (Function.update s.tasks t e u)) =
      Function.update (fun u => f (s.tasks u)) t (f e) :=
  funext fun u => Function.apply_update (fun _ => f) s.tasks t e u

/-- Enqueueing a task that has not completed. -/
lemma abs_enqueue {t : TaskId} (hc : (s.tasks t).hasCompleted = false) :
    (s.enqueue t).abs = { s.abs with
      queues := s.abs.queues.push (s.abs.cur, runq (s.abs.priority t)) t
      log := .enqueued t :: s.abs.log } := by
  rw [enqueue_of_not_completed hc]
  rfl

/-! ## Effects of wakes -/

/-- An effect of a wake is at most one move of the scheduler. -/
lemma Effect.refines (h : Effect s s') (hwf : s.Wf) : ReflTransGen Sched.Step s.abs s'.abs := by
  cases h with
  | @read p rest hpipe hp =>
    rw [abs_setExec_cur]
    refine .single (.drain s.abs p rest hpipe fun t ht => ?_)
    exact (hp t ht).imp_left fun h => by simp [abs_alive, h]
  | @receive t rest hpipe halive hc =>
    rw [abs_enqueue (by exact hc), abs_setExec_cur]
    exact .single (.receive s.abs t rest hpipe (abs_alive.mpr halive) hc)
  | @enqueue t halive hc =>
    rw [abs_enqueue hc]
    exact .single (.enqueue s.abs t (abs_alive.mpr halive) hc)
  | setWaker => exact .refl
  | @write x p =>
    by_cases hx : x = s.cur
    · subst hx
      rw [abs_setExec_cur]
      exact .single (.write s.abs p)
    · rw [abs_setExec_of_ne _ hx]
  | @woken t h =>
    refine .single (.note s.abs (.woken t) rfl fun u hu hexec halive hc => ?_)
    obtain rfl : t = u := by simpa using hu
    have halive' := abs_alive.mp halive
    refine h halive' hc ?_
    rw [hwf.pipeWr t (hwf.ids t halive'), executor]
    exact congrArg (fun x => (s.execs x).pipeWr) hexec
  | @blockOnWoken b => exact .single (.note s.abs (.blockOnWoken b) rfl (by simp))
  | @otherWoken k => exact .single (.note s.abs (.otherWoken k) rfl (by simp))

/-- The effects of wakes are moves of the scheduler. -/
lemma Effects.refines (h : Effects s s') (hwf : s.Wf) : ReflTransGen Sched.Step s.abs s'.abs := by
  induction h with
  | refl => exact .refl
  | tail hs h ih => exact ih.trans (h.refines (hwf.steady (Effects.steady hs)))

/-! ## Moves -/

/-- The polls in progress of a stack with a known top. -/
lemma abs_polls {f : Frame} {rest : List Frame} (hstack : s.stack = f :: rest) :
    s.abs.polls = f.poll.toList ++ rest.filterMap Frame.poll := by
  cases hf : f.poll <;> simp [abs, hstack, hf]

/-- Replacing the stack shows in the polls in progress. -/
lemma abs_setStack (s : Thread V) (stack : List Frame) :
    (s.setStack stack).abs = { s.abs with polls := stack.filterMap Frame.poll } := rfl

/-- One move of the scheduler. -/
lemma refines_of_eq {σ σ' σ'' : Sched} (h : Sched.Step σ σ') (he : σ'' = σ') :
    ReflTransGen Sched.Step σ σ'' :=
  he ▸ .single h

/-- Replacing the top of the stack does not show if the polls stay the same. -/
lemma abs_setStack_of_poll (fs : List Frame) {f : Frame} {rest : List Frame} (hstack : s.stack = f :: rest)
    (hfs : fs.filterMap Frame.poll = f.poll.toList) : (s.setStack (fs ++ rest)).abs = s.abs := by
  have hpolls := abs_polls hstack
  rw [abs_setStack, List.filterMap_append, hfs, ← hpolls]

/-- A call from code of the caller begins no poll. -/
lemma poll_push {f g : Frame} (hg : g.poll = none) :
    [g, f].filterMap Frame.poll = f.poll.toList := by
  cases hf : f.poll <;> simp [hg, hf]

/-- A jump is at most one move of the scheduler. -/
lemma Jump.refines {a : Action V} {f : Frame} {fs rest : List Frame} (hj : Jump s a s' f fs)
    (hstack : s.stack = f :: rest) (hwf : s.Wf) :
    ReflTransGen Sched.Step s.abs (s'.setStack (fs ++ rest)).abs := by
  have key : fs.filterMap Frame.poll = f.poll.toList →
      ReflTransGen Sched.Step s.abs (s'.setStack (fs ++ rest)).abs := fun hfs => by
    rw [abs_setStack_of_poll fs (hj.effects.steady.stack.trans hstack) hfs]
    exact hj.effects.refines hwf
  cases hj with
  | enterRun hu => exact key (poll_push rfl)
  | @settled k t hq =>
    exact .single (.keep s.abs t _ (abs_polls hstack) (by
      simpa [isQueued, Option.isSome_iff_ne_none, abs] using hq))
  | runWaited hpc heff | runFailed hpc heff => rcases hpc with rfl | rfl <;> exact key rfl
  | handleWake hpc heff => rcases hpc with rfl | rfl <;> exact key rfl
  | _ => exact key rfl

/-- Dropping an `Fd` is only noted. -/
lemma fdDrop_refines (s : Thread V) (f : FdId) :
    ReflTransGen Sched.Step s.abs (s.fdDrop f).abs := by
  have hdel : (s.epollDel (s.fds f).raw).abs = s.abs := abs_setExec_cur s _
  refine refines_of_eq (.note s.abs (.fdDropped f s.cur) rfl (by simp)) ?_
  exact congrArg (fun σ : Sched => { σ with log := .fdDropped f s.cur :: σ.log }) hdel

/-- Creating an `Fd` is at most noted. -/
lemma fdNew_refines (s : Thread V) (raw : RawFd) (events : EpollFlags) (fcntl ctl : Bool) :
    ReflTransGen Sched.Step s.abs (s.fdNew raw events fcntl ctl).abs := by
  have hadd : ∀ fd interest, (s.addFd fd interest).abs = s.abs := fun fd interest =>
    abs_setExec_cur _ _
  rcases fdNew_cases s raw events fcntl ctl with h | ⟨fd, interest, -, -, h | h⟩ <;> rw [h]
  · exact refines_refl (hadd fd interest)
  · exact (refines_refl (hadd fd interest)).trans (fdDrop_refines _ _)

/-- Every move of a well-formed thread is a sequence of moves of the scheduler. -/
theorem Move.refines {a : Action V} (hm : Move s a s') (hwf : s.Wf) :
    ReflTransGen Sched.Step s.abs s'.abs := by
  cases hm with
  | stay hu heff => exact heff.refines hwf
  | jump hstack hj => exact hj.refines hstack hwf
  | crash heff hp => exact (heff.refines hwf).tail (.crash _ none)
  | @selectCrash k f f' rest t hstack hf hfront hb =>
    have hs := abs_setStack_of_poll [f'] hstack
      (by rcases Frame.of_loop hf with ⟨rfl, rfl⟩ | ⟨b, rfl, rfl⟩ <;> rfl)
    refine refines_of_eq (.crash s.abs (some t)) ?_
    apply Sched.ext
    case polls => exact (congrArg Sched.polls hs :)
    all_goals rfl
  | @select k f f' rest t hstack hf hfront hb =>
    have hrun : t ∉ s.abs.running := by
      rw [abs_running, hwf.running_iff_borrowed hstack hf]
      simp [hb]
    have hpolls : (Frame.runTask t .polling :: f' :: rest).filterMap Frame.poll =
        (t, false) :: s.abs.polls := by
      rw [abs_polls hstack]
      rcases Frame.of_loop hf with ⟨rfl, rfl⟩ | ⟨b, rfl, rfl⟩ <;> rfl
    refine refines_of_eq (.select s.abs t hfront hrun) ?_
    apply Sched.ext
    case polls => exact hpolls
    case exec => exact read_update (s := s) (t := t) ExecutorTask.exec rfl
    case priority => exact read_update (s := s) (t := t) ExecutorTask.priority rfl
    case completed => exact read_update (s := s) (t := t) ExecutorTask.hasCompleted rfl
    case handle => exact read_update (s := s) (t := t) ExecutorTask.handle rfl
    all_goals rfl
  | @repoll k s₁ b pc rest hstack hpc heff =>
    have hs := abs_setStack_of_poll (s := s₁) [.blockOn b .polling]
      (heff.steady.stack.trans hstack) (by rcases hpc with rfl | rfl <;> rfl)
    refine (heff.refines hwf).trans (refines_of_eq (.note _ (.blockOnPolled b) rfl (by simp)) ?_)
    apply Sched.ext
    case polls => exact (congrArg Sched.polls hs :)
    all_goals rfl
  | @pending t rest hstack =>
    refine refines_refl ?_
    apply Sched.ext
    case polls => exact (abs_polls hstack).symm
    case exec => exact (read_update (s := s) (t := t) ExecutorTask.exec rfl)
    case priority => exact (read_update (s := s) (t := t) ExecutorTask.priority rfl)
    case completed => exact (read_update (s := s) (t := t) ExecutorTask.hasCompleted rfl)
    case handle => exact (read_update (s := s) (t := t) ExecutorTask.handle rfl)
    all_goals rfl
  | @sleep k t rest hstack hq =>
    exact .single (.sleep s.abs t _ (abs_polls hstack) (by simpa [isQueued, abs] using hq))
  | @ready t rest v hstack =>
    refine refines_of_eq (.ready s.abs t _ (abs_polls hstack)) ?_
    apply Sched.ext
    case exec => exact read_update (s := s) (t := t) ExecutorTask.exec rfl
    case priority => exact read_update (s := s) (t := t) ExecutorTask.priority rfl
    case completed => exact read_update (s := s) (t := t) ExecutorTask.hasCompleted rfl
    case handle => exact read_update (s := s) (t := t) ExecutorTask.handle rfl
    all_goals rfl
  | @complete k t fs rest hstack hfs =>
    refine refines_of_eq (.complete s.abs t _ (abs_polls hstack)) ?_
    apply Sched.ext
    case polls => rcases hfs with rfl | rfl <;> rfl
    case exec => exact read_update (s := s) (t := t) ExecutorTask.exec rfl
    case priority => exact read_update (s := s) (t := t) ExecutorTask.priority rfl
    case completed => exact read_update_eq ExecutorTask.hasCompleted
    case handle => exact read_update (s := s) (t := t) ExecutorTask.handle rfl
    all_goals rfl
  | @replace pipeWr rest hstack hfd =>
    refine refines_of_eq (.replace s.abs) ?_
    apply Sched.ext
    case polls => exact (abs_polls hstack).symm
    case pipe => simp [abs, executor, setExec, Thread.setStack, Executor.new]
    all_goals rfl
  | @discard k x q t pc rest hstack hq hpc =>
    have hx : x < s.cur := hwf.replaced (.run (.teardown x)) (by simp [hstack]) x rfl
    have hs := abs_setStack_of_poll [.run pc] hstack
      (by rcases hpc with rfl | rfl <;> rfl)
    refine refines_of_eq (.discard s.abs t (x, q) hq hx.ne) ?_
    apply Sched.ext
    case polls => exact (congrArg Sched.polls hs :)
    all_goals rfl
  | @close k x rest hstack =>
    have hx : x < s.cur := hwf.replaced (.run (.teardown x)) (by simp [hstack]) x rfl
    have hexec := abs_setExec_of_ne (s := s) { s.execs x with isOpen := false } hx.ne
    refine refines_of_eq (.note s.abs (.ran x (s.execs x).shutdown) rfl (by simp)) ?_
    apply Sched.ext
    case polls => exact (abs_polls hstack).symm
    case pipe => exact (congrArg Sched.pipe hexec :)
    all_goals rfl
  | @spawn p hu =>
    refine refines_of_eq (.spawn s.abs p) ?_
    rw [Thread.spawn, enqueue_of_not_completed (by simp)]
    apply Sched.ext
    case queues => simp [abs]
    case exec => exact read_update_eq ExecutorTask.exec
    case priority => exact read_update_eq ExecutorTask.priority
    case completed => exact read_update_eq ExecutorTask.hasCompleted
    case handle => exact read_update_eq ExecutorTask.handle
    all_goals rfl
  | @abort t hu hh => exact .single (.abort s.abs t (abs_alive.mpr (alive_of_handle hh)))
  | @handle a t e hu hh he =>
    have hrefs : ∀ u, ({ s.abs with
        handle := Function.update s.abs.handle t e.handle, waking := s.waking } : Sched).alive u →
          s.abs.alive u := by
      intro u hu
      by_cases hut : u = t
      · exact .inr (.inl (hut ▸ hh))
      · simp only [Sched.alive, Function.update_of_ne hut] at hu
        exact hu
    refine refines_of_eq (.refs s.abs _ s.waking hrefs) ?_
    apply Sched.ext
    case exec => exact read_update (s := s) (t := t) ExecutorTask.exec (by rw [he])
    case priority => exact read_update (s := s) (t := t) ExecutorTask.priority (by rw [he])
    case completed => exact read_update (s := s) (t := t) ExecutorTask.hasCompleted (by rw [he])
    case handle => exact read_update_eq ExecutorTask.handle
    all_goals rfl
  | shutdown hu => exact refines_refl (abs_setExec_cur s _)
  | blockOn hu =>
    obtain ⟨f, rest, hstack, hf⟩ := exists_of_inUserCode hu
    exact .single (.note s.abs (.blockOnPolled s.nBlockOns) rfl (by simp))
  | @fdNew raw events fcntl ctl hu => exact fdNew_refines s raw events fcntl ctl
  | @fdDrop f hu hlive => exact fdDrop_refines s f
  | @enterPollWith f cx k hu => exact .refl
  | @closure r f cx ew rest hstack =>
    refine refines_refl ?_
    apply Sched.ext
    case polls => exact (abs_polls hstack).symm
    all_goals rfl
  | @foreignUpgrade t halive =>
    refine .single (.refs s.abs s.abs.handle (t :: s.waking) fun u hu => ?_)
    by_cases hut : u = t
    · exact hut ▸ abs_alive.mpr halive
    · simp only [Sched.alive, List.mem_cons, hut, false_or] at hu
      exact hu
  | @foreignWrite t =>
    have hwf' : ({ s with waking := s.waking.erase t } : Thread V).Wf := hwf.erase_waking t
    have hrefs : Sched.Step s.abs ({ s with waking := s.waking.erase t } : Thread V).abs :=
      .refs s.abs s.abs.handle (s.waking.erase t) fun u hu =>
        hu.imp_right (Or.imp_right (Or.imp_right List.mem_of_mem_erase))
    exact .head hrefs ((foreignWrite_effects s t).refines hwf')
  | @foreignBlockOn b => exact (foreignBlockOn_effects s b).refines hwf

/-- A thread at its start is the scheduler at its start. -/
lemma IsStart.abs (h : s.IsStart) : s.abs = Sched.initial := by
  obtain ⟨pipeWr, pipeCapacity, -, rfl⟩ := h
  rfl

/-- Every reachable thread is a state of a run of the scheduler. -/
theorem abs_reached (h : Reachable step IsStart s) : s.abs.Reached := by
  induction h with
  | init h => exact refines_refl (IsStart.abs h)
  | next h _ hs ih => exact ih.trans ((move_of_step hs).2.refines (wf_of_reachable h))

end Thread

end Epox

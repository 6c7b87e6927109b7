import Epox.Executor.WellFormed

/-!
# Futures that wait for an `Fd`

A `poll_with` that returns `Poll::Pending` leaves the waker of its caller with the `Fd` (`Parked`).  The
waker stays there over every run that neither polls the `Fd` nor reports an event for it, whatever else
the thread does in between: an `epoll_wait` touches only the `Fd`s of the events that it is given.
-/

namespace Epox

/-- The kernel reports an event for the `Fd`. -/
def KernelAnswer.reports (f : FdId) : KernelAnswer → Prop
  | .ok evs => ∃ e, .fd f e ∈ evs
  | .error _ => False

namespace Thread

variable {V : Type} {s s' : Thread V}

/-! ## Parking a waker -/

/-- The latest poll of the `Fd` returned `Poll::Pending` with the waker `w`, and no event has been
delivered for it since. -/
structure Parked (s : Thread V) (f : FdId) (w : Waker) : Prop where
  waker : (s.fds f).ew.waker = w
  events : (s.fds f).ew.events = 0

/-- `poll_with` on an `Fd` without events returns `Poll::Pending` at once and parks the `Fd`. -/
lemma parked_of_pollWith {k : KernelAnswer} {f : FdId} {cx : Waker}
    (hb : (s.fds f).borrowed = false) (hev : (s.fds f).ew.events = 0) :
    ∃ s', s.pollWith k f cx = .ok s' ∧ s'.Parked f cx := by
  refine ⟨s.setFd f { s.fds f with ew := { (s.fds f).ew with burst := 0, waker := cx } }, ?_, ?_⟩
  · simp [pollWith, hb, EpollWaker.pollWithEnter, hev]
  · constructor <;> simp [setFd, hev]

/-- A closure that would block parks the `Fd`. -/
lemma parked_of_wouldBlock {f : FdId} {cx : Waker} {rest : List Frame}
    (hstack : s.stack = .pollWith f cx :: rest) (hs : s.closure .wouldBlock = some s') :
    s'.Parked f cx := by
  simp only [closure, hstack, EpollWaker.pollWithReturn, Option.some.injEq] at hs
  subst hs
  constructor <;> simp [setFd, Thread.setStack]

/-! ## Frames of a wake -/

/-- What has been recorded in between is that tasks were enqueued. -/
def OnlyEnqueues (s s' : Thread V) : Prop :=
  ∃ l, s'.log = l ++ s.log ∧ ∀ e ∈ l, ∃ t, e = .enqueued t

/-- Nothing has been recorded. -/
lemma onlyEnqueues_of_log_eq (h : s'.log = s.log) : OnlyEnqueues s s' := ⟨[], h, by simp⟩

/-- Two changes in a row. -/
lemma OnlyEnqueues.trans {s₁ : Thread V} (h : OnlyEnqueues s s₁) (h' : OnlyEnqueues s₁ s') :
    OnlyEnqueues s s' := by
  obtain ⟨l, hl, hm⟩ := h
  obtain ⟨l', hl', hm'⟩ := h'
  refine ⟨l' ++ l, by rw [hl', hl, List.append_assoc], fun e he => ?_⟩
  exact (List.mem_append.mp he).elim (hm' e) (hm e)

/-- Enqueueing a task changes no `Fd` and records nothing else. -/
lemma enqueue_frame (s : Thread V) (t : TaskId) :
    (s.enqueue t).fds = s.fds ∧ OnlyEnqueues s (s.enqueue t) := by
  unfold enqueue
  split_ifs
  · exact ⟨rfl, onlyEnqueues_of_log_eq rfl⟩
  · exact ⟨rfl, [.enqueued t], rfl, by simp⟩

/-- Reading from the pipe changes no `Fd` and records at most that a task was enqueued. -/
lemma wakeFromPipe_frame (h : s.wakeFromPipe = some s') : s'.fds = s.fds ∧ OnlyEnqueues s s' := by
  dsimp only [wakeFromPipe] at h
  split at h
  · simp at h
  · split at h
    · obtain rfl := Option.some.inj h
      exact ⟨rfl, onlyEnqueues_of_log_eq rfl⟩
    · obtain rfl := Option.some.inj h
      split_ifs
      · exact enqueue_frame (s.setExec _ _) _
      · exact ⟨rfl, onlyEnqueues_of_log_eq rfl⟩

/-- Delivering an event changes no other `Fd` and records at most that a task was enqueued. -/
lemma deliver_frame {f : FdId} {e : EpollFlags} (h : s.deliver f e = some s') :
    (∀ g, g ≠ f → s'.fds g = s.fds g) ∧ OnlyEnqueues s s' := by
  have hset : ∀ fd g, g ≠ f → (s.setFd f fd).fds g = s.fds g := fun fd g hg => by
    simp [setFd, hg]
  dsimp only [deliver] at h
  split_ifs at h
  · obtain rfl := Option.some.inj h
    exact ⟨fun _ _ => rfl, onlyEnqueues_of_log_eq rfl⟩
  · split at h
    · obtain rfl := Option.some.inj h
      split_ifs
      · obtain ⟨hfds, hlog⟩ := enqueue_frame (s.setFd f _) _
        exact ⟨fun g hg => by rw [hfds, hset _ g hg], hlog⟩
      · exact ⟨hset _, onlyEnqueues_of_log_eq rfl⟩
    · obtain rfl := Option.some.inj h
      exact ⟨hset _, onlyEnqueues_of_log_eq rfl⟩

/-! ## What touches an `Fd` -/

/-- An `Fd` has not been touched and no other been created. -/
def KeepsFd (s s' : Thread V) (f : FdId) : Prop :=
  s'.fds f = s.fds f ∧ s'.nFds = s.nFds

/-- Two changes in a row. -/
lemma KeepsFd.trans {s₁ : Thread V} {f : FdId} (h : s.KeepsFd s₁ f) (h' : s₁.KeepsFd s' f) :
    s.KeepsFd s' f :=
  ⟨h'.1.trans h.1, h'.2.trans h.2⟩

/-- The loop over the events leaves an `Fd` alone for which there is none. -/
lemma wakeup_keepsFd {f : FdId} {evs : List EpollEvent} (hnot : ∀ e, .fd f e ∉ evs) (s : Thread V) :
    s.KeepsFd (s.wakeup evs).memory f := by
  refine ⟨?_, (wakeup_effects evs s).untouched.nFds⟩
  induction evs generalizing s with
  | nil => rfl
  | cons ev evs ih =>
    have hrest : ∀ e, .fd f e ∉ evs := fun e he => hnot e (List.mem_cons_of_mem _ he)
    cases ev with
    | pipe =>
      simp only [wakeup]
      split
      · rename_i s₁ hs₁
        rw [ih hrest s₁, (wakeFromPipe_frame hs₁).1]
      · rfl
    | fd g e =>
      simp only [wakeup]
      split
      · rename_i s₁ hs₁
        have hfg : f ≠ g := by
          rintro rfl
          exact hnot e List.mem_cons_self
        rw [ih hrest s₁, (deliver_frame hs₁).1 f hfg]
      · rfl

/-- `epoll_wait` leaves an `Fd` alone for which the kernel reports no event. -/
lemma epollWait_keepsFd {f : FdId} {k : KernelAnswer} (hk : ¬ k.reports f) (s : Thread V) :
    s.KeepsFd (s.epollWait k).memory f := by
  unfold epollWait
  split_ifs
  · exact ⟨rfl, rfl⟩
  · match k with
    | .ok evs => exact wakeup_keepsFd (fun e he => hk ⟨e, he⟩) s
    | .error .eintr | .error .other => exact ⟨rfl, rfl⟩

/-- Enqueueing a task leaves every `Fd` alone. -/
lemma enqueue_keepsFd (s : Thread V) (t : TaskId) (f : FdId) : s.KeepsFd (s.enqueue t) f := by
  unfold enqueue
  split_ifs <;> exact ⟨rfl, rfl⟩

/-- Writing to a pipe leaves every `Fd` alone. -/
lemma write_keepsFd {fd : RawFd} {p : Option TaskId} (h : s.write fd p = some s') (f : FdId) :
    s.KeepsFd s' f := by
  unfold write at h
  split at h
  · obtain rfl := Option.some.inj h
    exact ⟨rfl, rfl⟩
  · split_ifs at h
    obtain rfl := Option.some.inj h
    exact ⟨rfl, rfl⟩

/-- A wake leaves an `Fd` alone for which the kernel reports no event. -/
lemma wake_keepsFd {f : FdId} {k : KernelAnswer} (hk : ¬ k.reports f) (s : Thread V) (w : Waker) :
    s.KeepsFd (s.wake k w).memory f := by
  cases w with
  | task t =>
    simp only [wake, taskWake]
    split_ifs
    · have hwait := epollWait_keepsFd hk s
      cases hs : s.epollWait k with
      | ok s₁ | err s₁ =>
        rw [hs] at hwait
        exact hwait.trans (enqueue_keepsFd s₁ t f)
      | panic p s₁ => simpa [hs, Outcome.ignoreErr, Outcome.andThen] using hwait
    · exact enqueue_keepsFd s t f
    · split
      · rename_i s₁ hs₁
        exact write_keepsFd hs₁ f
      · exact ⟨rfl, rfl⟩
    · exact ⟨rfl, rfl⟩
  | blockOn pipeWr b =>
    simp only [wake, blockOnWake]
    split_ifs
    · exact ⟨rfl, rfl⟩
    · split
      · rename_i s₁ hs₁
        exact write_keepsFd hs₁ f
      · exact ⟨rfl, rfl⟩
  | noop | other => exact ⟨rfl, rfl⟩

/-- The beginning of `run_task` leaves every `Fd` alone. -/
lemma runTask_keepsFd (s : Thread V) (t : TaskId) (f : FdId) : s.KeepsFd (s.runTask t) f := by
  unfold runTask
  split_ifs <;> exact ⟨rfl, rfl⟩

/-- `run` leaves an `Fd` alone for which the kernel reports no event. -/
lemma goRun_keepsFd {f : FdId} {k : KernelAnswer} (hk : ¬ k.reports f) {rest : List Frame} {pc : RunPc}
    (h : s.goRun k rest pc = some s') : s.KeepsFd s' f := by
  have hwait := epollWait_keepsFd hk s
  cases pc with
  | select =>
    simp only [goRun, highestPriorityRunnableTask_eq] at h
    cases hfront : s.front with
    | none =>
      simp only [hfront, Option.map_none, Option.some.injEq] at h
      exact h ▸ ⟨rfl, rfl⟩
    | some t =>
      simp only [hfront, Option.map_some, Option.some.injEq] at h
      exact h ▸ runTask_keepsFd (Thread.setStack { s with queues := s.queues.release t } _) t f
  | afterTask | checkSleepq =>
    simp only [goRun] at h
    split_ifs at h <;> exact Option.some.inj h ▸ ⟨rfl, rfl⟩
  | waitZero | waitNone =>
    simp only [goRun] at h
    split at h <;> rename_i hs <;> rw [hs] at hwait <;> exact Option.some.inj h ▸ hwait
  | replace | dropping => simp [goRun] at h
  | teardown x =>
    simp only [goRun] at h
    split at h
    · rename_i hs
      obtain ⟨-, rfl⟩ := popReplaced_eq_some hs
      split_ifs at h <;> exact Option.some.inj h ▸ ⟨rfl, rfl⟩
    · exact Option.some.inj h ▸ ⟨rfl, rfl⟩

/-- `run_task` leaves an `Fd` alone for which the kernel reports no event. -/
lemma goRunTask_keepsFd {f : FdId} {k : KernelAnswer} (hk : ¬ k.reports f) {t : TaskId}
    {rest : List Frame} {pc : TaskPc} (h : s.goRunTask k t rest pc = some s') : s.KeepsFd s' f := by
  cases pc with
  | settle =>
    simp only [goRunTask] at h
    split_ifs at h <;> exact Option.some.inj h ▸ ⟨rfl, rfl⟩
  | wakeHandle w =>
    have hwake := wake_keepsFd hk s w
    simp only [goRunTask] at h
    split at h
    · rename_i hs
      rw [hs] at hwake
      split at h <;> exact Option.some.inj h ▸ hwake
    · rename_i hs
      rw [hs] at hwake
      split at h <;> exact Option.some.inj h ▸ hwake
    · rename_i hs
      rw [hs] at hwake
      exact Option.some.inj h ▸ hwake
  | complete =>
    simp only [goRunTask] at h
    split_ifs at h <;> exact Option.some.inj h ▸ ⟨rfl, rfl⟩
  | polling | inHandleWake | drop => simp [goRunTask] at h

/-- `block_on` leaves an `Fd` alone for which the kernel reports no event. -/
lemma goBlockOn_keepsFd {f : FdId} {k : KernelAnswer} (hk : ¬ k.reports f) {b : BlockOnId}
    {rest : List Frame} {pc : BlockOnPc} (h : s.goBlockOn k b rest pc = some s') :
    s.KeepsFd s' f := by
  have hwait := epollWait_keepsFd hk s
  cases pc with
  | select =>
    simp only [goBlockOn, highestPriorityRunnableTask_eq] at h
    cases hfront : s.front with
    | none =>
      simp only [hfront, Option.map_none, Option.some.injEq] at h
      exact h ▸ ⟨rfl, rfl⟩
    | some t =>
      simp only [hfront, Option.map_some, Option.some.injEq] at h
      exact h ▸ runTask_keepsFd (Thread.setStack { s with queues := s.queues.release t } _) t f
  | waitZero | waitNone =>
    simp only [goBlockOn] at h
    split at h <;> rename_i hs <;> rw [hs] at hwait <;> exact Option.some.inj h ▸ hwait
  | polling => simp [goBlockOn] at h

/-- Another thread that writes to a pipe leaves every `Fd` alone. -/
lemma foreignWrite_keepsFd (s : Thread V) (t : TaskId) (f : FdId) :
    s.KeepsFd (s.foreignWrite t) f := by
  unfold foreignWrite
  dsimp only
  split
  · rename_i s₁ hs₁
    exact write_keepsFd (s := { s with waking := s.waking.erase t }) hs₁ f
  · exact ⟨rfl, rfl⟩

/-- Another thread that invokes the waker of a `block_on` leaves every `Fd` alone. -/
lemma foreignBlockOn_keepsFd (s : Thread V) (b : BlockOnId) (f : FdId) :
    s.KeepsFd (s.foreignBlockOn b) f := by
  unfold foreignBlockOn
  split
  · rename_i s₁ hs₁
    exact write_keepsFd hs₁ f
  · exact ⟨rfl, rfl⟩

/-- A panic leaves every `Fd` alone. -/
lemma keepsFd_thread {o : Outcome V} {f : FdId} (h : s.KeepsFd o.memory f) :
    s.KeepsFd o.thread f := by
  cases o <;> exact h

/-- The step neither polls the `Fd` nor finds an event for it. -/
def Spares (f : FdId) (s : Thread V) : Action V → Prop
  | .go k | .wake _ k => ¬ k.reports f
  | .pollWith g _ k => g ≠ f ∧ ¬ k.reports f
  | .closure _ => ∀ cx rest, s.stack ≠ .pollWith f cx :: rest
  | _ => True

/-- The waker and the events of an `Fd` have stayed the same, and it still exists. -/
def KeepsWaker (s s' : Thread V) (f : FdId) : Prop :=
  (s'.fds f).ew = (s.fds f).ew ∧ s.nFds ≤ s'.nFds

/-- An `Fd` that has not been touched has kept its waker. -/
lemma KeepsFd.keepsWaker {f : FdId} (h : s.KeepsFd s' f) : s.KeepsWaker s' f :=
  ⟨by rw [h.1], h.2.ge⟩

/-- Dropping an `Fd` changes no waker. -/
lemma fdDrop_keepsWaker (s : Thread V) (f g : FdId) : s.KeepsWaker (s.fdDrop g) f := by
  refine ⟨?_, le_rfl⟩
  by_cases hfg : f = g
  · simp [fdDrop, setFd, epollDel, setExec, emit, hfg]
  · simp [fdDrop, setFd, epollDel, setExec, emit, hfg]

/-- Creating an `Fd` changes the waker of no other. -/
lemma fdNew_keepsWaker {f : FdId} (hf : f ≠ s.nFds) (raw : RawFd) (events : EpollFlags)
    (fcntl ctl : Bool) : s.KeepsWaker (s.fdNew raw events fcntl ctl) f := by
  have hadd : ∀ fd interest, s.KeepsWaker (s.addFd fd interest) f := fun fd interest =>
    ⟨by simp [addFd, setExec, hf], Nat.le_succ _⟩
  rcases fdNew_cases s raw events fcntl ctl with h | ⟨fd, interest, -, -, h | h⟩ <;> rw [h]
  · exact ⟨rfl, le_rfl⟩
  · exact hadd fd interest
  · obtain ⟨hew, hle⟩ := fdDrop_keepsWaker (s.addFd fd interest) f s.nFds
    exact ⟨hew.trans (hadd fd interest).1, (hadd fd interest).2.trans hle⟩

/-- `poll_with` on another `Fd` leaves an `Fd` alone for which the kernel reports no event. -/
lemma pollWith_keepsFd {f g : FdId} {k : KernelAnswer} (hg : g ≠ f) (hk : ¬ k.reports f) (s : Thread V)
    (cx : Waker) : s.KeepsFd (s.pollWith k g cx).memory f := by
  have hset : ∀ fd, s.KeepsFd (s.setFd g fd) f := fun fd =>
    ⟨by simp [setFd, hg.symm], rfl⟩
  unfold pollWith
  dsimp only
  split_ifs
  · exact ⟨rfl, rfl⟩
  · split
    · exact hset _
    · exact (hset _).trans (wake_keepsFd hk _ cx)
    · exact hset _

/-- A step that spares an `Fd` keeps its waker and its events. -/
lemma step_keepsWaker {f : FdId} {a : Action V}
    (hf : ∀ raw events ctl, a = .fdNew raw events true ctl → f ≠ s.nFds) (ha : s.Spares f a)
    (h : s.step a = some s') : s.KeepsWaker s' f := by
  have hrefl : s.KeepsFd s f := ⟨rfl, rfl⟩
  cases (acts_of_step h).2 with
  | go k hk hgo =>
    unfold go at hgo
    split at hgo
    · exact (goRun_keepsFd ha hgo).keepsWaker
    · exact (goRunTask_keepsFd ha hgo).keepsWaker
    · exact (goBlockOn_keepsFd ha hgo).keepsWaker
    · simp at hgo
  | wake w k => exact (keepsFd_thread (wake_keepsFd ha s w)).keepsWaker
  | pollWith g cx k => exact (keepsFd_thread (pollWith_keepsFd ha.1 ha.2 s cx)).keepsWaker
  | interrupted => exact hrefl.keepsWaker
  | @closure r g cx rest ew hstack =>
    have hg : f ≠ g := by
      rintro rfl
      exact ha cx rest hstack
    exact ⟨by simp [Thread.setStack, setFd, hg], le_rfl⟩
  | fdNew raw events fcntl ctl =>
    cases fcntl with
    | false => exact hrefl.keepsWaker
    | true => exact fdNew_keepsWaker (hf raw events ctl rfl) raw events true ctl
  | fdDrop g => exact fdDrop_keepsWaker s f g
  | spawn priority => exact (enqueue_keepsFd _ s.nTasks f).keepsWaker
  | handleResult t =>
    unfold handleResult
    split_ifs <;> exact hrefl.keepsWaker
  | handlePoll t w =>
    unfold handlePoll
    split_ifs
    · exact hrefl.keepsWaker
    · split <;> exact hrefl.keepsWaker
  | foreignWrite t => exact (foreignWrite_keepsFd s t f).keepsWaker
  | foreignBlockOn b => exact (foreignBlockOn_keepsFd s b f).keepsWaker
  | _ => exact hrefl.keepsWaker

/-- An `Fd` stays parked over every step that spares it. -/
lemma Parked.step {f : FdId} {w : Waker} {a : Action V} (h : s.Parked f w) (hf : f < s.nFds)
    (ha : s.Spares f a) (hs : s.step a = some s') : s'.Parked f w ∧ f < s'.nFds := by
  obtain ⟨hew, hle⟩ := step_keepsWaker (fun _ _ _ _ => hf.ne) ha hs
  exact ⟨⟨hew ▸ h.waker, hew ▸ h.events⟩, hf.trans_le hle⟩

/-- From the poll that parks the `Fd` it stays parked over every run whose steps spare it, so that
the next `epoll_wait` with an event for it finds the waker that this poll left. -/
theorem Parked.of_run {s₀ : Thread V} {f : FdId} {w : Waker} (h : s₀.Parked f w) (hf : f < s₀.nFds)
    (hrun : ReachableUnder Thread.step (· = s₀) (Spares f) s) : s.Parked f w := by
  refine (hrun.invariant (P := fun u => u.Parked f w ∧ f < u.nFds) ?_ ?_).1
  · rintro u rfl
    exact ⟨h, hf⟩
  · rintro u a u' - ⟨hu, hfu⟩ ha hs
    exact hu.step hfu ha hs

end Thread

end Epox

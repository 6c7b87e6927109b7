import Epox.Scheduler.Refinement

/-!
# Wakes

A wake must not be lost: the thread must not wait in `epoll_wait(EpollTimeout::NONE)` with nothing in its
pipe while something it was asked to poll has not been polled.  The two results are about the two kinds
of wakers of the crate, those of tasks and those of `block_on`.
-/

namespace Epox

/-- A frame that has found the run queues empty. -/
def Frame.idle : Frame → Bool
  | .run .checkSleepq | .run .waitNone | .blockOn _ .waitNone => true
  | _ => false

/-- A frame that has found the run queues empty has no frames above it. -/
lemma Frame.not_calling_of_idle {f : Frame} (h : f.idle = true) : f.calling = false := by
  unfold Frame.idle at h
  split at h <;> simp_all [Frame.calling]

/-- A frame that has found the run queues empty is in its loop. -/
lemma Frame.not_passing_of_idle {f : Frame} (h : f.idle = true) : f.passing = false := by
  unfold Frame.idle at h
  split at h <;> simp_all [Frame.passing]

namespace Thread

variable {V : Type} {s s' : Thread V}

/-- The thread waits in `epoll_wait(EpollTimeout::NONE)`, which its pipe does not end. -/
def blocked (s : Thread V) : Bool :=
  match s.stack with
  | .run .waitNone :: _ => s.executor.pipe.isEmpty && s.executor.events != 0
  | .blockOn _ .waitNone :: _ => s.executor.pipe.isEmpty && s.executor.events != 0
  | _ => false

/-! ## Waiting with empty run queues -/

/-- The wake of a task by another thread only writes to a pipe. -/
lemma foreignWrite_cases (s : Thread V) (t : TaskId) :
    ∃ s₁ l, Written s s₁ ∧ (s.foreignWrite t).cur = s₁.cur ∧ (s.foreignWrite t).queues = s₁.queues ∧
      (s.foreignWrite t).stack = s₁.stack ∧ (s.foreignWrite t).executor = s₁.executor ∧
      (s.foreignWrite t).log = l ++ s.log ∧ ∀ e ∈ l, e = .woken t := by
  dsimp only [foreignWrite]
  split
  · rename_i s₁ hs₁
    have hw := write_written hs₁
    exact ⟨s₁, [.woken t], ⟨hw.cur, hw.queues, hw.tasks, hw.stack, hw.log, hw.pipeWr, hw.pipe⟩, rfl, rfl,
      rfl, rfl, by simp [emit, hw.log], by simp⟩
  · exact ⟨s, [], ⟨rfl, rfl, rfl, rfl, rfl, rfl, id⟩, rfl, rfl, rfl, rfl, rfl, by simp⟩

/-- The wake of a `block_on` by another thread only writes to a pipe. -/
lemma foreignBlockOn_cases (s : Thread V) (b : BlockOnId) :
    ∃ s₁, Written s s₁ ∧ s.foreignBlockOn b = s₁.emit (.blockOnWoken b) := by
  unfold foreignBlockOn
  split
  · rename_i s₁ hs₁
    exact ⟨s₁, write_written hs₁, rfl⟩
  · exact ⟨s, ⟨rfl, rfl, rfl, rfl, rfl, rfl, id⟩, rfl⟩

/-- What other threads leave alone. -/
structure Undisturbed (s s' : Thread V) : Prop where
  cur : s'.cur = s.cur
  queues : s'.queues = s.queues
  tasks : s'.tasks = s.tasks
  stack : s'.stack = s.stack
  panicked : s'.panicked = s.panicked
  shutdown : s'.executor.shutdown = s.executor.shutdown
  events : s'.executor.events = s.executor.events

/-- The run queues are as before. -/
lemma Undisturbed.front (h : Undisturbed s s') : s'.front = s.front := by
  simp [Thread.front, h.queues, h.cur]

/-- Upgrading a reference changes nothing else. -/
lemma foreignUpgrade_undisturbed (s : Thread V) (t : TaskId) :
    Undisturbed s { s with waking := t :: s.waking } :=
  ⟨rfl, rfl, rfl, rfl, rfl, rfl, rfl⟩

/-- What another thread writes to wake a task does not disturb the thread. -/
lemma foreignWrite_undisturbed (s : Thread V) (t : TaskId) : Undisturbed s (s.foreignWrite t) := by
  obtain ⟨s₁, l, hw, hcur, hqueues, hstack, -⟩ := foreignWrite_cases s t
  have hsame := (foreignWrite_effects s t).untouched
  refine ⟨hcur.trans hw.cur, hqueues.trans hw.queues, hsame.tasks, hstack.trans hw.stack,
    hsame.panicked, ?_, ?_⟩
  · rw [executor, hsame.cur]
    exact hsame.shutdown s.cur
  · rw [executor, hsame.cur]
    exact hsame.events s.cur

/-- What another thread writes to wake a `block_on` does not disturb the thread. -/
lemma foreignBlockOn_undisturbed (s : Thread V) (b : BlockOnId) :
    Undisturbed s (s.foreignBlockOn b) := by
  obtain ⟨s₁, hw, heq⟩ := foreignBlockOn_cases s b
  have hsame := (foreignBlockOn_effects s b).untouched
  refine ⟨hsame.cur, ?_, hsame.tasks, hsame.stack, hsame.panicked, ?_, ?_⟩
  · rw [heq]
    exact hw.queues
  · rw [executor, hsame.cur]
    exact hsame.shutdown s.cur
  · rw [executor, hsame.cur]
    exact hsame.events s.cur

/-- While the top of the stack has found the run queues empty, they are. -/
def Idle (s : Thread V) : Prop :=
  ∀ f rest, s.stack = f :: rest → f.idle = true → s.front = none

/-- A stack whose top is below a frame, or is code of the caller, waits for nothing. -/
lemma idle_of_calling (h : ∀ f ∈ s.stack.head?, f.calling = true) : s.Idle := by
  intro f rest hstack hidle
  have hc := h f (by simp [hstack])
  simp [Frame.not_calling_of_idle hidle] at hc

/-- What does not disturb a thread leaves its run queues empty. -/
lemma Undisturbed.idle (h : Undisturbed s s') (hi : s.Idle) : s'.Idle := by
  intro f rest hf hidle
  rw [h.front]
  exact hi f rest (h.stack ▸ hf) hidle

/-- A jump leaves the run queues empty for a top of the stack that has found them so. -/
lemma Jump.idle {a : Action V} {f g : Frame} {fs rest : List Frame} (hj : Jump s a s' f (g :: fs))
    (hstack : s.stack = f :: rest) (hi : s.Idle) : (s'.setStack (g :: fs ++ rest)).Idle := by
  intro g' rest' hg hidle
  obtain ⟨rfl, -⟩ := List.cons.inj hg
  cases hj with
  | runIdle hfront => exact hfront
  | blockOnIdle hfront => exact hfront
  | sleepqNonempty => exact hi _ _ hstack rfl
  | handleWake hpc heff => simp [Frame.idle] at hidle
  | _ => simp [Frame.idle] at hidle

/-- Every move leaves the run queues empty for a top of the stack that has found them so. -/
lemma Move.idle {a : Action V} (hm : Move s a s') (hwf : s.Wf) (hi : s.Idle)
    (hp : s'.panicked = none) : s'.Idle := by
  cases hm.top hwf hp with
  | calling h => exact idle_of_calling h
  | passing hstack hf =>
    intro f rest hg hidle
    obtain ⟨rfl, -⟩ := List.cons.inj (hstack.symm.trans hg)
    simp [Frame.not_passing_of_idle hidle] at hf
  | jump hstack hj hs =>
    subst hs
    exact hj.idle hstack hi
  | foreignUpgrade hs => exact hs ▸ (foreignUpgrade_undisturbed s _).idle hi
  | foreignWrite ha hs => exact hs ▸ (foreignWrite_undisturbed s _).idle hi
  | foreignBlockOn ha hs => exact hs ▸ (foreignBlockOn_undisturbed s _).idle hi

/-- While the top of the stack has found the run queues empty, they are. -/
lemma idle_of_reachable (h : Reachable step IsStart s) (hp : s.panicked = none) : s.Idle := by
  refine h.invariant (P := fun s => s.panicked = none → s.Idle) ?_ ?_ hp
  · rintro s ⟨pipeWr, pipeCapacity, -, rfl⟩ -
    exact idle_of_calling (by simp [start, Frame.calling])
  · intro s a s' hs ih _ hstep hp
    obtain ⟨hn, hm⟩ := move_of_step hstep
    exact hm.idle (wf_of_reachable hs) (ih hn) hp

/-! ## Wakes of tasks -/

/-- A task of the current executor that has not completed, and that has a reference or was never aborted,
is alive. -/
lemma alive_of_kept (h : Reachable step IsStart s) (hp : s.panicked = none) {t : TaskId}
    (ht : t < s.nTasks) (hexec : (s.tasks t).exec = s.cur) (hc : (s.tasks t).hasCompleted = false)
    (hab : .aborted t ∉ s.log) : s.alive t = true := by
  by_cases hr : t ∈ s.running
  · exact alive_of_running hr
  · have hk := (abs_reached h).kept (by simp [abs, hp]) t ht hexec hc hab (by rwa [abs_running])
    exact alive_iff.mpr (.inl hk)

/-- A task of the current executor whose wake has returned, and which has not begun a poll, completed or
been aborted since, is in the run queue of its priority or its pointer is in the pipe; so `run` does not
block while it sleeps. -/
theorem woken_task_delivered (h : Reachable step IsStart s) (hp : s.panicked = none) {t : TaskId}
    (ht : t < s.nTasks) (hexec : (s.tasks t).exec = s.cur) (hc : (s.tasks t).hasCompleted = false)
    (hw : WakePending t s.log) (hab : s.alive t = true ∨ .aborted t ∉ s.log) :
    (s.runnable t ∨ some t ∈ s.executor.pipe) ∧ s.blocked = false := by
  have halive : s.alive t = true := hab.elim id (alive_of_kept h hp ht hexec hc)
  have hd : s.runnable t ∨ some t ∈ s.executor.pipe :=
    (abs_reached h).delivered (by simp [abs, hp]) t hexec hw (abs_alive.mpr halive) hc
  refine ⟨hd, ?_⟩
  have hidle := idle_of_reachable h hp
  have key : s.front = none → s.executor.pipe ≠ [] := by
    intro hfront hpipe
    rcases hd with hr | hm
    · obtain ⟨u, hu⟩ := exists_front hr
      simp [hfront] at hu
    · simp [hpipe] at hm
  unfold blocked
  split
  · rename_i hstack
    simp [key (hidle _ _ hstack rfl)]
  · rename_i hstack
    simp [key (hidle _ _ hstack rfl)]
  · rfl

/-- Another thread wakes a sleeping task while `run` waits. -/
theorem woken_task_delivered_from_pipe : ∃ s : Thread Unit, Reachable step IsStart s ∧
    s.stack = [.run .waitNone, .user] ∧ (s.runnable 0 ∨ some 0 ∈ s.executor.pipe) ∧
      s.blocked = false := by
  obtain ⟨s, hs, h⟩ := exists_reachable (V := Unit)
    [.spawn .normal, .run, .go (.ok []), .pending, .go (.ok []), .go (.ok []), .go (.ok []),
      .go (.ok []), .go (.ok []), .foreignUpgrade 0, .foreignWrite 0]
    (fun s => decide (s.panicked = none ∧ 0 < s.nTasks ∧ (s.tasks 0).exec = s.cur ∧
      (s.tasks 0).hasCompleted = false ∧ WakePending 0 s.log ∧ s.alive 0 = true ∧
        s.stack = [.run .waitNone, .user])) (by decide)
  obtain ⟨hp, ht, hexec, hc, hw, halive, hstack⟩ := of_decide_eq_true h
  exact ⟨s, hs, hstack, woken_task_delivered hs hp ht hexec hc hw (.inl halive)⟩

/-! ## Wakes of `block_on` -/

/-- A waker of the `block_on` has been invoked since the latest poll of its future began. -/
def BlockOnWoken (b : BlockOnId) : List Event → Prop :=
  Since (· = .blockOnWoken b) (· = .blockOnPolled b)

@[simp] lemma blockOnWoken_cons {b : BlockOnId} {e : Event} {h : List Event} :
    BlockOnWoken b (e :: h) ↔
      e = .blockOnWoken b ∨ ¬ e = .blockOnPolled b ∧ BlockOnWoken b h := Iff.rfl

instance (b : BlockOnId) (h : List Event) : Decidable (BlockOnWoken b h) := decidableSince h

/-- The `block_on` whose future is being polled on top of the stack. -/
def pollingBlockOn (s : Thread V) : Option BlockOnId :=
  match s.stack with
  | .blockOn b .polling :: _ => some b
  | _ => none

end Thread

/-- The call of `block_on` of the frame, if the latest poll of its future has returned `Poll::Pending`. -/
def Frame.suspended : Frame → Option BlockOnId
  | .blockOn _ .polling => none
  | .blockOn b _ => some b
  | _ => none

namespace Thread

variable {V : Type} {s s' : Thread V}

/-- The calls of `block_on`, at any depth of the stack, whose futures have last returned `Poll::Pending`. -/
def suspended (s : Thread V) : List BlockOnId := s.stack.filterMap Frame.suspended

/-- Such a call, by its frame. -/
lemma mem_suspended {b : BlockOnId} {pc : BlockOnPc} (hf : .blockOn b pc ∈ s.stack) (hpc : pc ≠ .polling) :
    b ∈ s.suspended := by
  refine List.mem_filterMap.mpr ⟨_, hf, ?_⟩
  cases pc with
  | polling => exact absurd rfl hpc
  | select | waitZero | waitNone => rfl

/-- No task is runnable, and a wait for events finds nothing in the pipe. -/
def stalls (s : Thread V) : Bool :=
  s.front.isNone && s.executor.pipe.isEmpty && s.executor.events != 0

/-- When nothing is to be done and nothing ends a wait. -/
lemma stalls_iff : s.stalls = true ↔ s.front = none ∧ s.executor.pipe = [] ∧ s.executor.events ≠ 0 := by
  simp [stalls, and_assoc]

/-- The loop on top of the stack waits in `epoll_wait(EpollTimeout::NONE)`, or goes there unless a task
becomes runnable. -/
def waiting (s : Thread V) : Bool :=
  match s.stack with
  | .blockOn _ .select :: _ | .blockOn _ .waitNone :: _ | .run .waitNone :: _ => true
  | .run .checkSleepq :: _ => !(s.queues.list (s.cur, .sleepq)).isEmpty
  | _ => false

/-- A `run` is on top of the stack that will wait for events, if no task is runnable, since some task
sleeps. -/
def sleepsNext (s : Thread V) : Bool :=
  match s.stack with
  | .run .select :: _ => !(s.queues.list (s.cur, .sleepq)).isEmpty
  | _ => false

/-- The step loses no wake of a `block_on`.  When the future of one returns `Poll::Pending`, or a nested `run`
finds no runnable task, neither this call nor one below it has a wake outstanding, unless a task is runnable
or the pipe is not empty; and if another thread wakes a call while the loop on top is about to wait, it finds
the executor in place on which `block_on` was called. -/
def KeepsWake (s : Thread V) : Action V → Prop
  | .pending => ∀ b ∈ s.pollingBlockOn, ∀ b' ∈ b :: s.suspended, BlockOnWoken b' s.log → s.stalls = false
  | .go _ => s.sleepsNext = true → ∀ b ∈ s.suspended, BlockOnWoken b s.log → s.stalls = false
  | .foreignBlockOn b => s.waiting = true → b ∈ s.suspended → s.stalls = true →
      s.blockOnPipe b = s.executor.pipeWr
  | _ => True

instance (s : Thread V) : (a : Action V) → Decidable (KeepsWake s a)
  | .pending => inferInstanceAs (Decidable (∀ b ∈ s.pollingBlockOn, ∀ b' ∈ b :: s.suspended,
      BlockOnWoken b' s.log → s.stalls = false))
  | .go _ => inferInstanceAs (Decidable (s.sleepsNext = true → ∀ b ∈ s.suspended,
      BlockOnWoken b s.log → s.stalls = false))
  | .foreignBlockOn b => inferInstanceAs (Decidable (s.waiting = true → b ∈ s.suspended →
      s.stalls = true → s.blockOnPipe b = s.executor.pipeWr))
  | .replace _ | .spawn _ | .wake _ _ | .abort _ | .handleResult _ | .handlePoll _ _
  | .dropHandle _ | .shutdown | .run | .blockOn | .ready _ | .finish | .fdNew _ _ _ _ | .fdDrop _
  | .pollWith _ _ _ | .closure _ | .foreignUpgrade _ | .foreignWrite _ => .isTrue trivial

/-- While a loop waits on top of the stack and a `block_on` was woken, something will end the wait. -/
def WakeKept (s : Thread V) : Prop :=
  s.waiting = true → ∀ b ∈ s.suspended, BlockOnWoken b s.log → s.stalls = false

/-- A loop that waits is on top of the stack. -/
lemma stack_of_waiting (hw : s.waiting = true) : ∃ f rest, s.stack = f :: rest ∧
    ((∃ b, f = .blockOn b .select ∨ f = .blockOn b .waitNone) ∨ f = .run .waitNone ∨
      f = .run .checkSleepq ∧ s.queues.list (s.cur, .sleepq) ≠ []) := by
  unfold waiting at hw
  split at hw
  · rename_i b rest hstack
    exact ⟨_, rest, hstack, .inl ⟨b, .inl rfl⟩⟩
  · rename_i b rest hstack
    exact ⟨_, rest, hstack, .inl ⟨b, .inr rfl⟩⟩
  · rename_i rest hstack
    exact ⟨_, rest, hstack, .inr (.inl rfl)⟩
  · rename_i rest hstack
    exact ⟨_, rest, hstack, .inr (.inr ⟨rfl, by simpa using hw⟩)⟩
  · simp at hw

/-- Nothing is to be shown when the top of the stack is not in a loop. -/
lemma wakeKept_of_top (h : ∀ f ∈ s.stack.head?, f.calling = true ∨ f.passing = true) :
    s.WakeKept := by
  intro hw
  obtain ⟨f, rest, hstack, hf⟩ := stack_of_waiting hw
  have htop := h f (by simp [hstack])
  rcases hf with ⟨b, rfl | rfl⟩ | rfl | ⟨rfl, -⟩ <;> simp [Frame.calling, Frame.passing] at htop

/-- A jump that keeps wakes leaves them kept. -/
lemma Jump.wakeKept {a : Action V} {f g : Frame} {fs rest : List Frame}
    (hj : Jump s a s' f (g :: fs)) (hstack : s.stack = f :: rest) (hC : KeepsWake s a)
    (hk : s.WakeKept) : (s'.setStack (g :: fs ++ rest)).WakeKept := by
  intro hw b' hb'
  cases hj with
  | @blockOnPending b =>
    refine hC b (by simp [pollingBlockOn, hstack]) b' ?_
    simpa [Thread.suspended, Thread.setStack, hstack, Frame.suspended] using hb'
  | @blockOnIdle k b hfront =>
    refine hk (by simp [waiting, hstack]) b' ?_
    simpa [Thread.suspended, Thread.setStack, hstack, Frame.suspended] using hb'
  | runIdle hfront =>
    refine hC (by simpa [sleepsNext, waiting, Thread.setStack, hstack] using hw) b' ?_
    simpa [Thread.suspended, Thread.setStack, hstack, Frame.suspended] using hb'
  | sleepqNonempty hq =>
    refine hk (by simpa [waiting, hstack] using hq) b' ?_
    simpa [Thread.suspended, Thread.setStack, hstack, Frame.suspended] using hb'
  | handleWake hpc heff => rcases hpc with rfl | rfl <;> simp [waiting, Thread.setStack] at hw
  | _ => simp [waiting, Thread.setStack] at hw

/-- What does not disturb the thread waits as before. -/
lemma Undisturbed.waiting (h : Undisturbed s s') : s'.waiting = s.waiting := by
  simp only [Thread.waiting, h.stack, h.queues, h.cur]

/-- What does not disturb the thread suspends no call. -/
lemma Undisturbed.suspended (h : Undisturbed s s') : s'.suspended = s.suspended := by
  simp only [Thread.suspended, h.stack]

/-- If something was to be done, and no pointer was taken out of the pipe, this is still so. -/
lemma Undisturbed.not_stalls (h : Undisturbed s s') (hpipe : s.executor.pipe ≠ [] → s'.executor.pipe ≠ [])
    (hs : s.stalls = false) : s'.stalls = false := by
  by_contra hs'
  rw [Bool.not_eq_false, stalls_iff, h.front, h.events] at hs'
  obtain ⟨hfront, hnil, hevents⟩ := hs'
  have hstalls : s.stalls = true := stalls_iff.mpr ⟨hfront, by_contra fun hne => hpipe hne hnil, hevents⟩
  simp [hs] at hstalls

/-- A wake of a `block_on` by another thread keeps wakes, if it finds the executor in place. -/
lemma foreignBlockOn_wakeKept {b : BlockOnId} (hcap : 0 < s.pipeCapacity)
    (hC : KeepsWake s (.foreignBlockOn b)) (hk : s.WakeKept) : (s.foreignBlockOn b).WakeKept := by
  obtain ⟨s₁, hw, heq⟩ := foreignBlockOn_cases s b
  have hu := foreignBlockOn_undisturbed s b
  have hpipe : s.executor.pipe ≠ [] → (s.foreignBlockOn b).executor.pipe ≠ [] := by
    rw [heq]
    exact hw.pipe
  intro hwaiting b' hb' hwoken
  rw [hu.waiting] at hwaiting
  rw [hu.suspended] at hb'
  cases hstalls : s.stalls with
  | false => exact hu.not_stalls hpipe hstalls
  | true =>
    by_cases hbb : b = b'
    · -- The pointer that is written ends the wait.
      subst hbb
      have hwr := hC hwaiting hb' hstalls
      have hne : (s.foreignBlockOn b).executor.pipe ≠ [] := by
        unfold foreignBlockOn
        split
        · rename_i s₂ hs₂
          have hmem : none ∈ s₂.executor.pipe := mem_pipe_of_write hs₂ hwr
          exact List.ne_nil_of_mem (show none ∈ (s₂.emit _).executor.pipe from hmem)
        · rename_i hs₂
          have hof : s.pipeOf (s.blockOnPipe b) = some s.cur := by simp [pipeOf, hwr]
          simp only [write, hof, ite_eq_right_iff, reduceCtorEq, imp_false, not_lt] at hs₂
          exact List.ne_nil_of_length_pos (hcap.trans_le hs₂)
      by_contra hs'
      exact hne (stalls_iff.mp (by simpa using hs')).2.1
    · have hwoken' : BlockOnWoken b' s.log := by
        rw [heq] at hwoken
        simpa [emit, hbb, hw.log] using hwoken
      exact hu.not_stalls hpipe (hk hwaiting b' hb' hwoken')

/-- A wake of a task by another thread keeps the wakes of a `block_on`. -/
lemma foreignWrite_wakeKept (t : TaskId) (hk : s.WakeKept) : (s.foreignWrite t).WakeKept := by
  obtain ⟨s₁, l, hw, -, -, -, hexec, hlog, hl⟩ := foreignWrite_cases s t
  have hu := foreignWrite_undisturbed s t
  intro hwaiting b hb hwoken
  rw [hu.waiting] at hwaiting
  rw [hu.suspended] at hb
  have hwoken' : BlockOnWoken b s.log := by
    rw [hlog] at hwoken
    clear hlog
    induction l with
    | nil => exact hwoken
    | cons e l ih =>
      obtain rfl : e = .woken t := hl e (by simp)
      exact ih (fun e he => hl e (by simp [he])) (by simpa using hwoken)
  exact hu.not_stalls (by rw [hexec]; exact hw.pipe) (hk hwaiting b hb hwoken')

/-- A move that keeps wakes leaves them kept. -/
lemma Move.wakeKept {a : Action V} (hm : Move s a s') (hwf : s.Wf) (hcap : 0 < s.pipeCapacity)
    (hC : KeepsWake s a) (hk : s.WakeKept) (hp : s'.panicked = none) : s'.WakeKept := by
  cases hm.top hwf hp with
  | calling h => exact wakeKept_of_top fun f hf => .inl (h f hf)
  | passing hstack hf => exact wakeKept_of_top (by simp [hstack, hf])
  | jump hstack hj hs =>
    subst hs
    exact hj.wakeKept hstack hC hk
  | foreignUpgrade hs =>
    subst hs
    exact hk
  | foreignWrite ha hs =>
    subst hs
    exact foreignWrite_wakeKept _ hk
  | foreignBlockOn ha hs =>
    subst ha hs
    exact foreignBlockOn_wakeKept hcap hC hk

/-- Some pointer fits into a pipe. -/
lemma pipeCapacity_pos (h : Reachable step IsStart s) : 0 < s.pipeCapacity := by
  refine h.invariant (P := fun s => 0 < s.pipeCapacity) ?_ ?_
  · rintro s ⟨pipeWr, pipeCapacity, hcap, rfl⟩
    exact hcap
  · intro s a s' _ hcap _ hs
    have hm := (move_of_step hs).2
    have key : s'.pipeCapacity = s.pipeCapacity := by
      cases hm with
      | stay hu heff => exact heff.steady.pipeCapacity
      | jump hstack hj => exact hj.effects.steady.pipeCapacity
      | crash heff hp => exact heff.steady.pipeCapacity
      | repoll hstack hpc heff => exact heff.steady.pipeCapacity
      | spawn hu => rw [Thread.spawn, enqueue_of_not_completed (by simp)]
      | fdNew hu => exact (fdNew_steady s _ _ _ _).pipeCapacity
      | fdDrop hu hlive => exact (fdDrop_steady s _).pipeCapacity
      | foreignWrite => exact (foreignWrite_effects s _).steady.pipeCapacity
      | foreignBlockOn => exact (foreignBlockOn_effects s _).steady.pipeCapacity
      | _ => rfl
    rw [key]
    exact hcap

/-- A thread that is blocked has nothing to do. -/
lemma stalls_of_blocked (h : Reachable step IsStart s) (hp : s.panicked = none) (hb : s.blocked = true) :
    s.waiting = true ∧ s.stalls = true := by
  have hidle := idle_of_reachable h hp
  unfold blocked at hb
  split at hb
  · rename_i hstack
    exact ⟨by simp [waiting, hstack], by simpa [stalls, hidle _ _ hstack rfl] using hb⟩
  · rename_i hstack
    exact ⟨by simp [waiting, hstack], by simpa [stalls, hidle _ _ hstack rfl] using hb⟩
  · simp at hb

/-- In every run whose steps keep such wakes, the thread never blocks while the wake of a `block_on` is
outstanding whose future has last returned `Poll::Pending`, at whatever depth of the stack. -/
theorem blockOn_polled_again (h : ReachableUnder step IsStart KeepsWake s) (hp : s.panicked = none)
    {b : BlockOnId} {pc : BlockOnPc} (hframe : .blockOn b pc ∈ s.stack) (hpc : pc ≠ .polling)
    (hw : BlockOnWoken b s.log) : s.blocked = false := by
  have hkept : s.WakeKept := by
    refine h.invariant (P := fun s => s.panicked = none → s.WakeKept) ?_ ?_ hp
    · rintro s ⟨pipeWr, pipeCapacity, -, rfl⟩ -
      exact wakeKept_of_top (by simp [start, Frame.calling])
    · intro s a s' hs ih hC hstep hp
      obtain ⟨hn, hm⟩ := move_of_step hstep
      exact hm.wakeKept (wf_of_reachable hs.reachable) (pipeCapacity_pos hs.reachable) hC (ih hn) hp
  by_contra hblocked
  obtain ⟨hwaiting, hstalls⟩ := stalls_of_blocked h.reachable hp (by simpa using hblocked)
  simp [hkept hwaiting b (mem_suspended hframe hpc) hw] at hstalls

/-- Another thread wakes the future of a `block_on` that waits for a task, which waits in a `block_on` of its
own. -/
theorem blockOn_polled_again_from_thread : ∃ s : Thread Unit,
    ReachableUnder step IsStart KeepsWake s ∧
      s.stack = [.blockOn 1 .waitNone, .runTask 0 .polling, .blockOn 0 .waitZero, .user] ∧
        BlockOnWoken 0 s.log ∧ s.blocked = false := by
  obtain ⟨s, hs, h⟩ := exists_reachableUnder (V := Unit) KeepsWake
    [.spawn .normal, .blockOn, .pending, .go (.ok []), .blockOn, .pending, .go (.ok []), .foreignBlockOn 0]
    (fun s => decide (s.panicked = none ∧
      s.stack = [.blockOn 1 .waitNone, .runTask 0 .polling, .blockOn 0 .waitZero, .user] ∧
        BlockOnWoken 0 s.log)) (by decide)
  obtain ⟨hp, hstack, hw⟩ := of_decide_eq_true h
  have hframe : .blockOn 0 .waitZero ∈ s.stack := by simp [hstack]
  exact ⟨s, hs, hstack, hw, blockOn_polled_again hs hp hframe (by simp) hw⟩

/-- A future that wakes itself and returns `Poll::Pending`, as `yield_now` does, leaves `block_on` blocked;
so does one that is woken by a task that it waits for, if this task then waits in a `block_on` of its own. -/
theorem blockOn_blocked :
    (∃ s : Thread Unit, Reachable step IsStart s ∧ s.stack = [.blockOn 0 .waitNone, .user] ∧
      BlockOnWoken 0 s.log ∧ s.blocked = true) ∧
    ∃ s : Thread Unit, Reachable step IsStart s ∧
      s.stack = [.blockOn 1 .waitNone, .runTask 0 .polling, .blockOn 0 .waitZero, .user] ∧
        BlockOnWoken 0 s.log ∧ s.blocked = true := by
  constructor
  · obtain ⟨s, hs, h⟩ := exists_reachable (V := Unit)
      [.blockOn, .wake (.blockOn 3 0) (.ok []), .pending, .go (.ok [])]
      (fun s => decide (s.stack = [.blockOn 0 .waitNone, .user] ∧ BlockOnWoken 0 s.log ∧
        s.blocked = true)) (by decide)
    exact ⟨s, hs, of_decide_eq_true h⟩
  · obtain ⟨s, hs, h⟩ := exists_reachable (V := Unit)
      [.spawn .normal, .blockOn, .pending, .go (.ok []), .wake (.blockOn 3 0) (.ok []), .blockOn, .pending,
        .go (.ok [])]
      (fun s => decide (s.stack = [.blockOn 1 .waitNone, .runTask 0 .polling, .blockOn 0 .waitZero, .user] ∧
        BlockOnWoken 0 s.log ∧ s.blocked = true)) (by decide)
    exact ⟨s, hs, of_decide_eq_true h⟩

/-! ## A wake that is not kept -/

/-- The thread goes on by itself. -/
def Goes (s s' : Thread V) : Prop := s.step (.go (.error .other)) = some s'

/-- A loop that waits while there is nothing to do blocks. -/
lemma blocks_of_waiting (hn : s.panicked = none) (hw : s.waiting = true) (hs : s.stalls = true) :
    ∃ s', Relation.ReflTransGen Goes s s' ∧ s'.blocked = true ∧ s'.log = s.log ∧
      s'.suspended = s.suspended := by
  obtain ⟨hfront, hpipe, hevents⟩ := stalls_iff.mp hs
  have hwait : (s.executor.pipe.isEmpty && s.executor.events != 0) = true := by simp [hpipe, hevents]
  have hblocked : ∀ f rest, (f = .run .waitNone ∨ ∃ b, f = .blockOn b .waitNone) →
      (s.setStack (f :: rest)).blocked = true := by
    rintro f rest (rfl | ⟨b, rfl⟩)
    · exact hwait
    · exact hwait
  obtain ⟨f, rest, hstack, ⟨b, rfl | rfl⟩ | rfl | ⟨rfl, hq⟩⟩ := stack_of_waiting hw
  · refine ⟨s.setStack (.blockOn b .waitNone :: rest), .single ?_, hblocked _ _ (.inr ⟨b, rfl⟩), rfl, ?_⟩
    · simp [Goes, step, hn, act, answers, go, hstack, goBlockOn, highestPriorityRunnableTask_eq, hfront]
    · simp [suspended, setStack, hstack, Frame.suspended]
  · exact ⟨s, .refl, by simp [blocked, hstack, hpipe, hevents], rfl, rfl⟩
  · exact ⟨s, .refl, by simp [blocked, hstack, hpipe, hevents], rfl, rfl⟩
  · refine ⟨s.setStack (.run .waitNone :: rest), .single ?_, hblocked _ _ (.inl rfl), rfl, ?_⟩
    · simp [Goes, step, hn, act, answers, go, hstack, goRun, hq]
    · simp only [suspended, setStack, hstack]
      rfl

/-- A write to a pipe that is not that of the current executor leaves this one alone. -/
lemma foreignBlockOn_executor {b : BlockOnId} (hb : s.blockOnPipe b ≠ s.executor.pipeWr) :
    (s.foreignBlockOn b).executor = s.executor := by
  have hne : ∀ x, s.pipeOf (s.blockOnPipe b) = some x → s.cur ≠ x := by
    intro x hx
    rw [pipeOf, if_neg (Ne.symm hb)] at hx
    have hlt := List.mem_range.mp (List.mem_of_find?_eq_some hx)
    exact hlt.ne'
  unfold foreignBlockOn
  cases hw : s.write (s.blockOnPipe b) none with
  | none => rfl
  | some s₁ =>
    unfold write at hw
    split at hw
    · exact Option.some.inj hw ▸ rfl
    · rename_i x hx
      split_ifs at hw
      rw [← Option.some.inj hw]
      simp [emit, executor, setExec, hne x hx]

/-- A step that does not keep a wake leads to a thread that is blocked although the wake is outstanding. -/
theorem blockOn_blocks {a : Action V} (hs : s.step a = some s') (hC : ¬ KeepsWake s a) :
    ∃ s₁, Relation.ReflTransGen Goes s' s₁ ∧ s₁.blocked = true ∧
      ∃ b ∈ s₁.suspended, BlockOnWoken b s₁.log := by
  have hn := (move_of_step hs).1
  -- It is enough that a loop waits while there is nothing to do.
  have key : ∀ b, s'.panicked = none → s'.waiting = true → s'.stalls = true → b ∈ s'.suspended →
      BlockOnWoken b s'.log → ∃ s₁, Relation.ReflTransGen Goes s' s₁ ∧ s₁.blocked = true ∧
        ∃ b ∈ s₁.suspended, BlockOnWoken b s₁.log := by
    intro b hn' hw hst hb hwoken
    obtain ⟨s₁, hgo, hblocked, hlog, hsuspended⟩ := blocks_of_waiting hn' hw hst
    exact ⟨s₁, hgo, hblocked, b, hsuspended ▸ hb, hlog ▸ hwoken⟩
  cases a with
  | pending =>
    simp only [KeepsWake, not_forall, Bool.not_eq_false] at hC
    obtain ⟨b, hb, b', hb', hwoken, hst⟩ := hC
    unfold pollingBlockOn at hb
    split at hb
    · rename_i c rest hstack
      obtain rfl : c = b := by simpa using hb
      obtain rfl : s.setStack (.blockOn c .select :: rest) = s' := by
        simpa [step, hn, act, Thread.pending, hstack] using hs
      refine key b' hn rfl hst ?_ hwoken
      simpa [suspended, setStack, hstack, Frame.suspended] using hb'
    · simp at hb
  | go k =>
    simp only [KeepsWake, not_forall, Bool.not_eq_false] at hC
    obtain ⟨hnext, b, hb, hwoken, hst⟩ := hC
    obtain ⟨hfront, -⟩ := stalls_iff.mp hst
    unfold sleepsNext at hnext
    split at hnext
    · rename_i rest hstack
      obtain ⟨-, hgo⟩ := go_of_step hs
      obtain rfl : s.setStack (.run .checkSleepq :: rest) = s' := by
        simpa [go, hstack, goRun, highestPriorityRunnableTask_eq, hfront] using hgo
      refine key b hn hnext hst ?_ hwoken
      simpa [suspended, setStack, hstack, Frame.suspended] using hb
    · simp at hnext
  | foreignBlockOn b =>
    simp only [KeepsWake, not_forall] at hC
    obtain ⟨hw, hb, hst, hwr⟩ := hC
    have hu := foreignBlockOn_undisturbed s b
    obtain ⟨s₁, -, heq⟩ := foreignBlockOn_cases s b
    simp only [step, hn, act, Option.isSome_none, Bool.false_eq_true, if_false] at hs
    split_ifs at hs
    obtain rfl := Option.some.inj hs
    refine key b (hu.panicked.trans hn) (hu.waiting.trans hw) ?_ (hu.suspended ▸ hb) ?_
    · obtain ⟨hfront, hpipe, hevents⟩ := stalls_iff.mp hst
      rw [stalls_iff, hu.front, foreignBlockOn_executor hwr]
      exact ⟨hfront, hpipe, hevents⟩
    · rw [heq]
      exact .inl rfl
  | _ => exact absurd trivial hC

end Thread

end Epox

import Epox.Executor.Liveness
import Epox.Executor.Result

/-!
# A task that awaits another task

A task that polls the handle of another one leaves its waker there.  When the other task returns, `run_task`
takes this waker out of the cell and invokes it, and the output stays in its cell until a call of the handle
takes it.

In every fair endless run the task that waits receives the value (`awaited_value_received`).
-/

namespace Epox

namespace Thread

variable {V : Type} {s s' : Thread V} {t u : TaskId} {a : Action V}

/-! ## From the value to the wake -/

/-- A future that is ready stores its value, and the waker of its handle is taken out of the cell. -/
lemma closing_of_ready {v : V} {fs : List Frame} (hs : s.step (.ready v) = some s')
    (hstack : s.stack = .runTask u .polling :: fs) :
    s'.stack = .runTask u (.wakeHandle (s.tasks u).handleWaker) :: fs ∧
      (s'.tasks u).output = some v ∧ s'.log = .ready u :: s.log := by
  cases (acts_of_step hs).2 with
  | ready v hstack' =>
    obtain ⟨hframe, rfl⟩ := List.cons.inj (hstack.symm.trans hstack')
    obtain rfl := (Frame.runTask.inj hframe).1
    exact ⟨rfl, by simp [emit, setStack, setTask], rfl⟩
  | blockOnReady v hstack' => simp [hstack] at hstack'

/-- Until `run_task` has invoked the waker, nothing but steps of other threads comes in between. -/
lemma stack_of_closing {w : Waker} {fs : List Frame} (hs : s.step a = some s')
    (hstack : s.stack = .runTask u (.wakeHandle w) :: fs) (ha : ∀ k, a ≠ .go k) : s'.stack = s.stack := by
  have hnot : s.inUserCode ≠ true := by simp [inUserCode, hstack]
  cases (acts_of_step hs).2 with
  | go k => exact absurd rfl (ha k)
  | foreignUpgrade => rfl
  | foreignWrite t => exact (foreignWrite_effects s t).untouched.stack
  | foreignBlockOn b => exact (foreignBlockOn_effects s b).untouched.stack
  | replaceFailed hstack' | replace _ hstack' | pending hstack' | blockOnPending hstack' | ready _ hstack'
  | blockOnReady _ hstack' | handleWoken hstack' | dropped hstack' | resumed hstack'
  | interrupted _ hstack' | closure _ hstack' => simp [hstack] at hstack'
  | _ => exact absurd ‹s.inUserCode = true› hnot

/-- A wake of a task that returns is recorded last. -/
lemma log_of_taskWake {k : KernelAnswer} (h : (s.taskWake k t).panicked = none) :
    ∃ l, (s.taskWake k t).memory.log = .woken t :: l := by
  simp only [taskWake] at h ⊢
  split_ifs at h ⊢
  · cases hwait : s.epollWait k with
    | ok s₁ | err s₁ => exact ⟨_, rfl⟩
    | panic p s₁ => simp [hwait, Outcome.ignoreErr, Outcome.andThen, Outcome.panicked] at h
  · exact ⟨_, rfl⟩
  · cases hwrite : s.write (s.tasks t).pipeWr (some t) with
    | some s₁ => exact ⟨_, rfl⟩
    | none => simp [hwrite, Outcome.panicked] at h
  · exact ⟨_, rfl⟩

/-- Then the task that waits is woken. -/
lemma woken_of_closing {k : KernelAnswer} {fs : List Frame} (hs : s.step (.go k) = some s')
    (hstack : s.stack = .runTask u (.wakeHandle (.task t)) :: fs) (hp : s'.panicked = none) :
    WakePending t s'.log := by
  obtain ⟨-, hgo⟩ := go_of_step hs
  simp only [go, hstack, goRunTask, wake] at hgo
  have hlog := log_of_taskWake (s := s) (t := t) (k := k)
  cases hwake : s.taskWake k t with
  | ok s₁ | err s₁ =>
    simp only [hwake, Option.some.injEq] at hgo
    obtain ⟨l, hl⟩ := hlog (by rw [hwake]; rfl)
    rw [hwake] at hl
    have hl' : s'.log = .woken t :: l := hgo ▸ hl
    rw [hl']
    exact .inl rfl
  | panic p s₁ =>
    simp only [hwake, Option.some.injEq] at hgo
    simp [← hgo, Thread.panic] at hp

/-! ## The value stays -/

/-- Library code does not change the outputs of tasks. -/
lemma output_of_go {k : KernelAnswer} (h : s.go k = some s') : (s'.tasks u).output = (s.tasks u).output := by
  have hnot := inUserCode_of_go h
  have hkeep : ∀ s₁, Effects s s₁ → (s₁.tasks u).output = (s.tasks u).output := by
    intro s₁ heff
    rw [heff.untouched.tasks]
  cases move_of_go h with
  | stay hu heff => simp [hnot] at hu
  | handle hu => simp [hnot] at hu
  | jump hstack hj => exact (hkeep _ hj.effects :)
  | crash heff hp => exact (hkeep _ heff :)
  | repoll hstack hpc heff => exact (hkeep _ heff :)
  | selectCrash | sleep | discard | close => rfl
  | @select _ f f' rest t | @complete _ t fs rest =>
    by_cases hu : u = t
    · subst hu
      simp [emit, setStack, setTask]
    · simp [emit, setStack, setTask, hu]

/-- Nothing but a call of its handle takes the output of a task that has returned out of its cell. -/
lemma output_of_step (hr : ReachableUnder step IsStart (CompletesQuietlyAt u) s) (hs : s.step a = some s')
    (hready : .ready u ∈ s.log) (hresult : a ≠ .handleResult u) (hpoll : ∀ w, a ≠ .handlePoll u w) :
    (s'.tasks u).output = (s.tasks u).output := by
  have hreached := abs_reached hr.reachable
  by_cases htouch : s.TouchesHandle u a
  · cases (acts_of_step hs).2 with
    | go k hk hgo => exact output_of_go hgo
    | spawn =>
      have hne : u ≠ s.nTasks := (hreached.lt_of_ready hready).ne
      rw [Thread.spawn, enqueue_of_not_completed (by simp)]
      simp [hne]
    | handleResult v => exact absurd (congrArg Action.handleResult htouch) hresult
    | handlePoll v w => exact absurd (congrArg (Action.handlePoll · w) htouch) (hpoll w)
    | ready v hstack =>
      obtain ⟨rest, hstack'⟩ := htouch
      exact absurd hready (not_ready_of_polling (wf_of_reachable hr.reachable)
        (hreached.finishedTask (quietAt_of_reachable hr)) hstack')
    | blockOnReady v hstack =>
      obtain ⟨rest, hstack'⟩ := htouch
      simp [hstack] at hstack'
    | _ => exact absurd htouch id
  · exact (keepsHandle_of_step hs htouch).output

/-- A poll of the handle of a task that is being polled panics. -/
lemma borrowed_of_handlePoll {w : Waker} (hs : s.step (.handlePoll u w) = some s') (hp : s'.panicked = none) :
    (s.tasks u).borrowed = false := by
  cases (acts_of_step hs).2 with
  | handlePoll =>
    cases hb : (s.tasks u).borrowed with
    | false => rfl
    | true => simp [handlePoll, hb, Thread.panic] at hp

/-! ## Runs -/

/-- A call of the handle of the task `u`, other than a poll by the task `t`. -/
def disturbs (t u : TaskId) : Action V → Bool
  | .handleResult x => x == u
  | .handlePoll x w => x == u && w != .task t
  | _ => false

section Runs

variable {r : EndlessRun (step (V := V))} {rest : List Frame} {n : ℕ}

/-- The task is aborted or completes, or `run` gets out of its loop. -/
def DismissedAt (r : EndlessRun (step (V := V))) (t : TaskId) (n : ℕ) : Prop :=
  .aborted t ∈ (r.state n).fresh (r.state (n + 1)) ∨ ((r.state (n + 1)).tasks t).hasCompleted = true ∨
    ∃ fd, r.action n = .replace fd

/-- The task polls the handle of the other one, and receives the value. -/
def ReceivesAt (r : EndlessRun (step (V := V))) (t u : TaskId) (v : V) (n : ℕ) : Prop :=
  r.action n = .handlePoll u (.task t) ∧ ((r.state n).tasks u).output = some v ∧
    ((r.state n).tasks u).borrowed = false

/-- No poll of the handle between the two times. -/
def UnpolledUntil (r : EndlessRun (step (V := V))) (u : TaskId) (n m : ℕ) : Prop :=
  ∀ k, n ≤ k → k < m → ∀ w, r.action k ≠ .handlePoll u w

/-- An endless run without a panic that is fair to the task `t`, which awaits the task `u` from some time
on. -/
structure Awaits (r : EndlessRun (step (V := V))) (t u : TaskId) (rest : List Frame) (n : ℕ) : Prop where
  start : ReachableUnder step IsStart (CompletesQuietlyAt u) (r.state 0)
  /-- The task that is awaited does not wake itself in its last poll. -/
  quiet : ∀ m, CompletesQuietlyAt u (r.state m) (r.action m)
  panicked : ∀ m, (r.state m).panicked = none
  /-- Library code that is about to wake a handle goes on. -/
  goesOn : ∀ m, (∀ k, m ≤ k → (r.state k).closingNext = some u) →
    ∃ k answer, m ≤ k ∧ r.action k = .go answer
  /-- A loop goes on taking tasks as long as the task is runnable or a pointer is in the pipe. -/
  loop : ∀ k, (r.state k).runnable t ∨ (r.state k).executor.pipe ≠ [] →
    ∃ m, k ≤ m ∧ TakesNext rest (r.state m) (r.action m)
  /-- A pipe that stays non-empty is reported when `epoll_wait` is called again and again. -/
  reports : ∀ k, (∀ m, k ≤ m → (r.state m).executor.pipe ≠ []) →
    (∀ j, ∃ m, j ≤ m ∧ (r.state m).waitsWith (r.action m) ≠ none) →
      ∃ m, k ≤ m ∧ .pipe ∈ (r.state m).reported (r.action m)
  /-- From some time on no tasks of higher priority are polled. -/
  priority : ∃ n₀, ∀ m x, n₀ ≤ m → .polled x ∈ (r.state m).fresh (r.state (m + 1)) →
    ((r.state (m + 1)).tasks t).priority ≤ ((r.state (m + 1)).tasks x).priority
  /-- When the task is polled it polls the handle with its own waker, unless it has done so before. -/
  awaits : ∀ m, n ≤ m → .polled t ∈ (r.state m).fresh (r.state (m + 1)) →
    ∃ k, n ≤ k ∧ r.action k = .handlePoll u (.task t)
  /-- Nothing else uses the handle. -/
  only : ∀ m, n ≤ m → disturbs t u (r.action m) = false

/-- The first poll of the handle after the value was stored receives it. -/
lemma Awaits.receives (h : Awaits r t u rest n) {v : V} {fs : List Frame} (hready : r.action n = .ready v)
    (hstack : (r.state n).stack = .runTask u .polling :: fs) {k : ℕ} (hk : n ≤ k)
    (hcall : r.action k = .handlePoll u (.task t)) :
    ∃ m, n ≤ m ∧ UnpolledUntil r u n m ∧ ReceivesAt r t u v m := by
  have hnk : n ≠ k := by
    rintro rfl
    simp [hready] at hcall
  obtain ⟨-, houtput, hlog⟩ := closing_of_ready (hready ▸ r.next n) hstack
  have hfirst : UnpolledUntil r u n (n + 1) := by
    intro j hnj hj w hw
    obtain rfl : j = n := by omega
    simp [hready] at hw
  obtain ⟨m, hm, ⟨houtput, -, hunpolled⟩, w, hw⟩ := EndlessRun.exists_taken (n := n + 1)
    (P := fun m => ((r.state m).tasks u).output = some v ∧ .ready u ∈ (r.state m).log ∧
      UnpolledUntil r u n m)
    (E := fun m => ∃ w, r.action m = .handlePoll u w) ⟨houtput, by simp [hlog], hfirst⟩
    (fun m hm hP hnot => by
      have hs := r.next m
      refine ⟨?_, (move_of_step hs).2.later.log _ hP.2.1, fun j hnj hj w hw => ?_⟩
      · have honly := h.only m (by omega)
        rw [output_of_step (r.reachableUnder h.start h.quiet m) hs hP.2.1
          (fun hresult => by simp [hresult, disturbs] at honly) (fun w hw => hnot ⟨w, hw⟩)]
        exact hP.1
      · rcases Nat.lt_succ_iff_lt_or_eq.mp hj with hj | rfl
        · exact hP.2.2 j hnj hj w hw
        · exact hnot ⟨w, hw⟩)
    (fun _ => ⟨k, by omega, .task t, hcall⟩)
  have honly := h.only m (by omega)
  obtain rfl : w = .task t := by simpa [hw, disturbs] using honly
  exact ⟨m, by omega, hunpolled, hw, houtput, borrowed_of_handlePoll (hw ▸ r.next m) (h.panicked (m + 1))⟩

/-- When a task whose handle has the waker of another one returns, that one is woken. -/
lemma Awaits.wakes (h : Awaits r t u rest n) {v : V} {fs : List Frame} (hready : r.action n = .ready v)
    (hstack : (r.state n).stack = .runTask u .polling :: fs)
    (hwaker : ((r.state n).tasks u).handleWaker = .task t) :
    ∃ m, n ≤ m ∧ WakePending t (r.state m).log := by
  obtain ⟨hclosing, -⟩ := closing_of_ready (hready ▸ r.next n) hstack
  rw [hwaker] at hclosing
  obtain ⟨m, hm, hstack', answer, hgo⟩ := EndlessRun.exists_taken (n := n + 1)
    (P := fun m => (r.state m).stack = .runTask u (.wakeHandle (.task t)) :: fs)
    (E := fun m => ∃ answer, r.action m = .go answer) hclosing
    (fun m _ hP hnot => (stack_of_closing (r.next m) hP fun k hk => hnot ⟨k, hk⟩).trans hP)
    (fun hP => by
      obtain ⟨k, answer, hk, hgo⟩ := h.goesOn (n + 1) fun k hk => by simp [closingNext, hP k hk]
      exact ⟨k, hk, answer, hgo⟩)
  exact ⟨m + 1, by omega, woken_of_closing (hgo ▸ r.next m) hstack' (h.panicked (m + 1))⟩

end Runs

end Thread

end Epox

import Epox.Executor.Liveness
import Epox.Foundation.Part
import Epox.Join.Protocol

/-!
# A task that awaits a thread

The thread of an executor, whose code polls a `JoinFuture`, together with the thread that this waits for.  The
joined thread wakes the waker that it takes out of the shared state; if this is the waker of a task it
upgrades the weak pointer of the task and writes its address to the pipe, in two steps.  Both threads and all
others proceed in any order; while code of the executor's thread is in `JoinFuture::poll`, that thread does
nothing else.

When the closure has returned while the task is waiting, the task receives its value (`join_completes`).
-/

namespace Epox

/-- The thread of an executor and a thread that its code joins. -/
structure Await (V P W : Type) where
  thread : Thread W
  join : Join V P
  /-- The joined thread has upgraded the weak pointer of the task that it is waking. -/
  upgraded : Bool

/-- Who takes the next step. -/
inductive AwaitAction (V P W : Type)
  /-- The thread of the executor, or another one. -/
  | thread (a : Action W)
  /-- A poll of the `JoinFuture` or the joined thread, apart from its wake. -/
  | join (a : Join.Action V P)
  /-- The joined thread goes on with its wake, which panics with the payload if the pipe is full. -/
  | wake (payload : P)

/-- A step of the joined thread. -/
def AwaitAction.isJoined {V P W : Type} : AwaitAction V P W → Bool
  | .join (.returns _) | .join (.unwinds _) | .join .complete | .join .exit | .wake _ => true
  | _ => false

/-- A step of a poll of the `JoinFuture` that has been called. -/
def AwaitAction.isPoll {V P W : Type} : AwaitAction V P W → Bool
  | .join .lock | .join .join => true
  | _ => false

/-- The address of a task is written to a pipe that is not full. -/
lemma Thread.log_of_foreignWrite {W : Type} {s s' : Thread W} {t : TaskId}
    (hs : s.step (.foreignWrite t) = some s')
    (hwrite : (s.write (s.tasks t).pipeWr (some t)).isSome = true) : s'.log = .woken t :: s.log := by
  cases (acts_of_step hs).2 with
  | foreignWrite =>
    have hpipe : pipeOf { s with waking := s.waking.erase t } (s.tasks t).pipeWr =
        s.pipeOf (s.tasks t).pipeWr := rfl
    simp only [write] at hwrite
    simp only [foreignWrite, write, hpipe]
    cases hx : s.pipeOf (s.tasks t).pipeWr with
    | none => rfl
    | some x =>
      have hlt : (s.execs x).pipe.length < s.pipeCapacity := by
        by_contra hfull
        simp [hx, hfull] at hwrite
      simp only [hlt, if_true]
      rfl

namespace Await

variable {V P W : Type} {c c' : Await V P W}

/-- The task whose reference the joined thread will give up when it has written to the pipe. -/
def reserved (c : Await V P W) : Option TaskId :=
  match c.join.body with
  | .waking (.task t) _ => if c.upgraded then some t else none
  | _ => none

/-- The action is possible.  The write of another thread is not that of the joined one, and a future is not
polled again after it has returned `Poll::Ready`. -/
def Allows (c : Await V P W) : AwaitAction V P W → Prop
  | .thread (.foreignWrite t) => c.reserved = some t → 2 ≤ c.thread.waking.count t
  | .thread a => c.join.pc = .idle ∨ a.isForeign = true
  | .join (.poll w) =>
    c.thread.panicked = none ∧ c.thread.inUserCode = true ∧ c.thread.knows w = true ∧
      c.join.joinHandle = true
  | .join (.wake _) => False
  | .join _ | .wake _ => True

instance (c : Await V P W) (a : AwaitAction V P W) : Decidable (c.Allows a) := by
  unfold Allows
  split <;> infer_instance

/-- The step of the executor's thread, or of another thread that acts on it. -/
def threadAction (c : Await V P W) : AwaitAction V P W → Option (Action W)
  | .thread a => some a
  | .join _ => none
  | .wake _ =>
    match c.join.body with
    | .waking (.task t) _ =>
      if c.upgraded then some (.foreignWrite t)
      else if t < c.thread.nTasks ∧ c.thread.alive t then some (.foreignUpgrade t)
      else none
    | .waking (.blockOn _ b) _ => some (.foreignBlockOn b)
    | _ => none

/-- The step of the protocol between the joined thread and the polls.  The wake returns when there is nothing
to wake, or the address has been written; it panics if the pipe is full. -/
def joinAction (c : Await V P W) : AwaitAction V P W → Option (Join.Action V P)
  | .thread _ => none
  | .join a => some a
  | .wake payload =>
    match c.join.body with
    | .waking (.task t) _ =>
      if c.upgraded then
        if (c.thread.write (c.thread.tasks t).pipeWr (some t)).isSome then some (.wake none)
        else some (.wake (some payload))
      else if t < c.thread.nTasks ∧ c.thread.alive t then none
      else some (.wake none)
    | _ => some (.wake none)

/-- One step. -/
def step (c : Await V P W) (a : AwaitAction V P W) : Option (Await V P W) :=
  if c.Allows a then
    (advance Thread.step c.thread (c.threadAction a)).bind fun s =>
      (advance Join.step c.join (c.joinAction a)).map fun j =>
        { thread := s
          join := j
          upgraded := match a with
            | .wake _ => (c.joinAction a).isNone
            | _ => c.upgraded }
  else
    none

/-- The thread has just been spawned by code of the executor's thread. -/
def IsStart (c : Await V P W) : Prop :=
  Reachable Thread.step Thread.IsStart c.thread ∧ c.join = Join.start V P ∧ c.upgraded = false

/-- The wake of the joined thread does not find the pipe full. -/
def WakeReturns (c : Await V P W) (a : AwaitAction V P W) : Prop :=
  ∀ b ∈ c.joinAction a, c.join.WakeReturns b

instance (c : Await V P W) (a : AwaitAction V P W) : Decidable (c.WakeReturns a) := by
  unfold WakeReturns
  infer_instance

variable {a : AwaitAction V P W}

/-- What a step does. -/
lemma step_eq_some : c.step a = some c' ↔ c.Allows a ∧
    advance Thread.step c.thread (c.threadAction a) = some c'.thread ∧
      advance Join.step c.join (c.joinAction a) = some c'.join ∧
        c'.upgraded = match a with
          | .wake _ => (c.joinAction a).isNone
          | _ => c.upgraded := by
  unfold step
  split_ifs with hallows
  · simp only [Option.bind_eq_some_iff, Option.map_eq_some_iff, hallows, true_and]
    constructor
    · rintro ⟨s, hs, j, hj, rfl⟩
      exact ⟨hs, hj, rfl⟩
    · rintro ⟨hs, hj, hu⟩
      exact ⟨c'.thread, hs, c'.join, hj, by rw [← hu]⟩
  · simp [hallows]

/-- The thread of the executor is a part. -/
lemma isPart_thread : IsPart (step (V := V) (P := P) (W := W)) Thread.step thread threadAction :=
  fun _ _ _ h => (step_eq_some.mp h).2.1

/-- The protocol is a part. -/
lemma isPart_join : IsPart (step (V := V) (P := P) (W := W)) Join.step join joinAction :=
  fun _ _ _ h => (step_eq_some.mp h).2.2.1

/-! ## The steps of the joined thread and of a poll -/

/-- The step of the protocol, if there is one. -/
lemma join_of_step (hs : c.step a = some c') :
    c.joinAction a = none ∧ c'.join = c.join ∨
      ∃ b j, c.joinAction a = some b ∧ c.join.Steps b j ∧ c'.join = j := by
  have hjoin := isPart_join c a c' hs
  cases hb : c.joinAction a with
  | none =>
    rw [hb] at hjoin
    exact .inl ⟨rfl, (Option.some.inj hjoin).symm⟩
  | some b =>
    rw [hb] at hjoin
    exact .inr ⟨b, _, rfl, Join.steps_of_step hjoin, rfl⟩

/-- The wake is a step of the protocol when it returns or panics. -/
lemma joinAction_wake {payload : P} {b : Join.Action V P} (h : c.joinAction (.wake payload) = some b) :
    ∃ panics, b = .wake panics := by
  simp only [joinAction] at h
  split at h
  · split_ifs at h <;> exact ⟨_, (Option.some.inj h).symm⟩
  · exact ⟨_, (Option.some.inj h).symm⟩

/-- The others leave the joined thread where it is. -/
lemma body_of_step (hs : c.step a = some c') (ha : a.isJoined = false) :
    c'.join.body = c.join.body ∧ c'.upgraded = c.upgraded := by
  obtain ⟨-, -, -, hu⟩ := step_eq_some.mp hs
  cases a with
  | thread a =>
    rcases join_of_step hs with ⟨-, hj⟩ | ⟨b, j, hb, -⟩
    · exact ⟨by rw [hj], hu⟩
    · simp [joinAction] at hb
  | join b =>
    refine ⟨?_, hu⟩
    rcases join_of_step hs with ⟨hb, -⟩ | ⟨b', j, hb, hsteps, hj⟩
    · simp [joinAction] at hb
    · obtain rfl := Option.some.inj hb
      rw [hj]
      cases hsteps with
      | poll | pending | took | polledAgain | join => rfl
      | woken | wakePanics => exact absurd (step_eq_some.mp hs).1 id
      | _ => simp [AwaitAction.isJoined] at ha
  | wake payload => simp [AwaitAction.isJoined] at ha

/-- The others leave the waker in the state if only polls with this waker are in progress. -/
lemma state_of_step (hs : c.step a = some c') (ha : a.isJoined = false) {w : Waker}
    (hstate : c.join.state = .running w) (hpc : ∀ w', c.join.pc = .called w' → w' = w) :
    c'.join.state = .running w := by
  rcases join_of_step hs with ⟨-, hj⟩ | ⟨b, j, hb, hsteps, hj⟩
  · rw [hj]
    exact hstate
  · rw [hj]
    cases hsteps with
    | pending hpc' => exact congrArg JoinState.running (hpc _ hpc')
    | complete =>
      cases a with
      | thread a => simp [joinAction] at hb
      | join b =>
        obtain rfl := Option.some.inj hb
        simp [AwaitAction.isJoined] at ha
      | wake payload => simp [AwaitAction.isJoined] at ha
    | _ => exact hstate

/-- The others leave a poll that is in progress where it is. -/
lemma pc_of_step (hs : c.step a = some c') (ha : a.isPoll = false) (hpc : c.join.pc ≠ .idle) :
    c'.join.pc = c.join.pc ∧ c'.join.joinHandle = c.join.joinHandle := by
  rcases join_of_step hs with ⟨-, hj⟩ | ⟨b, j, hb, hsteps, hj⟩
  · exact ⟨by rw [hj], by rw [hj]⟩
  · rw [hj]
    cases hsteps with
    | poll hidle => exact absurd hidle hpc
    | pending | took | polledAgain | join =>
      cases a with
      | thread a => simp [joinAction] at hb
      | join b =>
        obtain rfl := Option.some.inj hb
        simp [AwaitAction.isPoll] at ha
      | wake payload => exact absurd (joinAction_wake hb) (by simp)
    | _ => exact ⟨rfl, rfl⟩

/-- After its closure the joined thread replaces the state and takes the waker out of it. -/
lemma complete_of_step (hs : c.step a = some c') (ha : a.isJoined = true) {v : V} {w : Waker}
    (hbody : c.join.body = .returned v) (hstate : c.join.state = .running w) :
    c'.join.body = .waking w v ∧ c'.join.state = .complete ∧ c'.upgraded = c.upgraded := by
  obtain ⟨-, -, -, hu⟩ := step_eq_some.mp hs
  cases a with
  | thread a => simp [AwaitAction.isJoined] at ha
  | join b =>
    rcases join_of_step hs with ⟨hb, -⟩ | ⟨b', j, hb, hsteps, hj⟩
    · simp [joinAction] at hb
    · obtain rfl := Option.some.inj hb
      rw [hj]
      cases hsteps with
      | complete hbody' hstate' =>
        obtain rfl := ThreadBody.returned.inj (hbody.symm.trans hbody')
        obtain rfl := JoinState.running.inj (hstate.symm.trans hstate')
        exact ⟨rfl, rfl, hu⟩
      | returns hbody' | unwinds hbody' | woken hbody' | wakePanics hbody' | exit hbody' =>
        simp [hbody] at hbody'
      | _ => simp [AwaitAction.isJoined] at ha
  | wake payload =>
    rcases join_of_step hs with ⟨hb, -⟩ | ⟨b, j, hb, hsteps, hj⟩
    · simp [joinAction, hbody] at hb
    · obtain ⟨panics, rfl⟩ := joinAction_wake hb
      cases hsteps with
      | woken hbody' | wakePanics hbody' => simp [hbody] at hbody'

/-- A step of the joined thread that has to wake a task is one of its wake. -/
lemma wake_of_step (hs : c.step a = some c') (ha : a.isJoined = true) {v : V} {w : Waker}
    (hbody : c.join.body = .waking w v) : ∃ payload, a = .wake payload := by
  cases a with
  | thread a => simp [AwaitAction.isJoined] at ha
  | join b =>
    rcases join_of_step hs with ⟨hb, -⟩ | ⟨b', j, hb, hsteps, hj⟩
    · simp [joinAction] at hb
    · obtain rfl := Option.some.inj hb
      cases hsteps with
      | complete hbody' | returns hbody' | unwinds hbody' | exit hbody' => simp [hbody] at hbody'
      | woken | wakePanics => exact absurd (step_eq_some.mp hs).1 id
      | _ => simp [AwaitAction.isJoined] at ha
  | wake payload => exact ⟨payload, rfl⟩

/-- First the joined thread upgrades the weak pointer of a task that is alive. -/
lemma upgrade_of_step {payload : P} (hs : c.step (.wake payload) = some c') {v : V} {t : TaskId}
    (hbody : c.join.body = .waking (.task t) v) (hu : c.upgraded = false) (ht : t < c.thread.nTasks)
    (halive : c.thread.alive t = true) :
    c'.join = c.join ∧ c'.upgraded = true ∧ c.thread.step (.foreignUpgrade t) = some c'.thread := by
  obtain ⟨-, hthread, hjoin, hu'⟩ := step_eq_some.mp hs
  have hnone : c.joinAction (.wake payload) = none := by simp [joinAction, hbody, hu, ht, halive]
  have hsome : c.threadAction (.wake payload) = some (.foreignUpgrade t) := by
    simp [threadAction, hbody, hu, ht, halive]
  rw [hnone] at hjoin
  rw [hsome] at hthread
  exact ⟨(Option.some.inj hjoin).symm, by simp [hu', hnone], hthread⟩

/-- Then it writes the address to the pipe, which records the wake of the task. -/
lemma write_of_step {payload : P} (hs : c.step (.wake payload) = some c')
    (hC : c.WakeReturns (.wake payload)) {v : V} {t : TaskId}
    (hbody : c.join.body = .waking (.task t) v) (hu : c.upgraded = true) :
    c'.join.body = .leaving v ∧ c'.thread.log = .woken t :: c.thread.log := by
  obtain ⟨-, hthread, hjoin, -⟩ := step_eq_some.mp hs
  have hsome : c.threadAction (.wake payload) = some (.foreignWrite t) := by
    simp [threadAction, hbody, hu]
  have hwrite : (c.thread.write (c.thread.tasks t).pipeWr (some t)).isSome = true := by
    by_contra hnot
    exact hC (.wake (some payload)) (by simp [joinAction, hbody, hu, hnot])
  have hnone : c.joinAction (.wake payload) = some (.wake none) := by
    simp [joinAction, hbody, hu, hwrite]
  rw [hnone] at hjoin
  rw [hsome] at hthread
  constructor
  · have hj : c.join.step (.wake none) = some c'.join := hjoin
    simp only [Join.step, hbody, Option.some.injEq] at hj
    rw [← hj]
    rfl
  · exact Thread.log_of_foreignWrite hthread hwrite

/-- Then it exits. -/
lemma exit_of_step (hs : c.step a = some c') (ha : a.isJoined = true) {v : V}
    (hbody : c.join.body = .leaving v) : c'.join.body = .exited (.ok v) := by
  cases a with
  | thread a => simp [AwaitAction.isJoined] at ha
  | join b =>
    rcases join_of_step hs with ⟨hb, -⟩ | ⟨b', j, hb, hsteps, hj⟩
    · simp [joinAction] at hb
    · obtain rfl := Option.some.inj hb
      rw [hj]
      cases hsteps with
      | exit hbody' =>
        obtain rfl := ThreadBody.leaving.inj (hbody.symm.trans hbody')
        rfl
      | complete hbody' | returns hbody' | unwinds hbody' | woken hbody' | wakePanics hbody' =>
        simp [hbody] at hbody'
      | _ => simp [AwaitAction.isJoined] at ha
  | wake payload =>
    rcases join_of_step hs with ⟨hb, -⟩ | ⟨b, j, hb, hsteps, hj⟩
    · simp [joinAction, hbody] at hb
    · obtain ⟨panics, rfl⟩ := joinAction_wake hb
      cases hsteps with
      | woken hbody' | wakePanics hbody' => simp [hbody] at hbody'

/-- A poll is called. -/
lemma called_of_step {w : Waker} (hs : c.step (.join (.poll w)) = some c') :
    c'.join.pc = .called w ∧ c'.join.joinHandle = true := by
  obtain ⟨hallows, -⟩ := step_eq_some.mp hs
  rcases join_of_step hs with ⟨hb, -⟩ | ⟨b, j, hb, hsteps, hj⟩
  · simp [joinAction] at hb
  · obtain rfl := Option.some.inj hb
    rw [hj]
    cases hsteps with
    | poll hpc => exact ⟨rfl, hallows.2.2.2⟩

/-- The step of a poll is a step of the protocol. -/
lemma poll_of_step (hs : c.step a = some c') (ha : a.isPoll = true) :
    ∃ b j, (b = .lock ∨ b = .join) ∧ c.join.Steps b j ∧ c'.join = j := by
  cases a with
  | thread a => simp [AwaitAction.isPoll] at ha
  | wake payload => simp [AwaitAction.isPoll] at ha
  | join b =>
    rcases join_of_step hs with ⟨hb, -⟩ | ⟨b', j, hb, hsteps, hj⟩
    · simp [joinAction] at hb
    · obtain rfl := Option.some.inj hb
      refine ⟨b, j, ?_, hsteps, hj⟩
      cases b <;> first | exact .inl rfl | exact .inr rfl | simp [AwaitAction.isPoll] at ha

/-- A poll that finds the state replaced takes the join handle. -/
lemma took_of_step (hs : c.step a = some c') (ha : a.isPoll = true) {w : Waker}
    (hpc : c.join.pc = .called w) (hstate : c.join.state = .complete)
    (hhandle : c.join.joinHandle = true) : c'.join.pc = .joining := by
  obtain ⟨b, j, hb, hsteps, hj⟩ := poll_of_step hs ha
  rw [hj]
  cases hsteps with
  | took => rfl
  | pending hpc' hstate' => simp [hstate] at hstate'
  | polledAgain hpc' hstate' hhandle' => simp [hhandle] at hhandle'
  | join hpc' => simp [hpc] at hpc'
  | _ => simp at hb

/-- A poll that has taken the join handle returns when the joined thread has exited. -/
lemma ready_of_step (hs : c.step a = some c') (ha : a.isPoll = true) (hpc : c.join.pc = .joining) :
    ∃ r, c.join.body = .exited r ∧ .ready r ∈ c'.join.log := by
  obtain ⟨b, j, hb, hsteps, hj⟩ := poll_of_step hs ha
  rw [hj]
  cases hsteps with
  | join hpc' hbody => exact ⟨_, hbody, List.mem_cons_self⟩
  | took hpc' | pending hpc' | polledAgain hpc' => simp [hpc] at hpc'
  | _ => simp at hb

/-- The joined thread has left its wake behind. -/
def Left (c : Await V P W) (v : V) : Prop :=
  c.join.body = .leaving v ∨ c.join.body = .exited (.ok v)

/-- It does not come back. -/
lemma Left.step {v : V} (h : c.Left v) (hs : c.step a = some c') : c'.Left v := by
  rcases join_of_step hs with ⟨-, hj⟩ | ⟨b, j, hb, hsteps, hj⟩
  · rw [Left, hj]
    exact h
  · rw [Left, hj]
    cases hsteps with
    | exit hbody =>
      refine .inr ?_
      rcases h with h | h
      · obtain rfl := ThreadBody.leaving.inj (h.symm.trans hbody)
        rfl
      · simp [h] at hbody
    | returns hbody | unwinds hbody | complete hbody | woken hbody | wakePanics hbody =>
      rcases h with h | h <;> simp [h] at hbody
    | _ => exact h

/-- A thread that has exited stays so. -/
lemma exited_of_step {res : Except P V} (h : c.join.body = .exited res) (hs : c.step a = some c') :
    c'.join.body = .exited res := by
  rcases join_of_step hs with ⟨-, hj⟩ | ⟨b, j, hb, hsteps, hj⟩
  · rw [hj]
    exact h
  · rw [hj]
    cases hsteps with
    | returns hbody | unwinds hbody | complete hbody | woken hbody | wakePanics hbody | exit hbody =>
      simp [h] at hbody
    | _ => exact h

/-! ## Runs -/

/-- The thread of the executor in a run. -/
lemma reachable_thread {C : Await V P W → AwaitAction V P W → Prop} (h : ReachableUnder step IsStart C c) :
    Reachable Thread.step Thread.IsStart c.thread :=
  (isPart_thread.reachableUnder (fun _ h => h.1) (fun _ _ _ _ _ => trivial) h).flatten

/-- The protocol in a run. -/
lemma reachable_join (h : ReachableUnder step IsStart WakeReturns c) :
    ReachableUnder Join.step Join.IsStart Join.WakeReturns c.join :=
  isPart_join.reachableUnder (fun _ h => h.2.1) (fun _ _ b hC hb => hC b hb) h

/-- What polls return is the value of the closure. -/
lemma eq_of_ready (h : ReachableUnder step IsStart WakeReturns c) {v : V} (hv : .returned v ∈ c.join.log)
    {r : Except P V} (hr : .ready r ∈ c.join.log) : r = .ok v := by
  have hjoin := reachable_join h
  obtain ⟨v', rfl, hv'⟩ := (Join.pollsOk_of_reachable hjoin).result r (Join.mem_results.mpr hr)
  have hvalue := (Join.value_of_reachable hjoin hv').symm.trans (Join.value_of_reachable hjoin hv)
  rw [Option.some.inj hvalue]

/-- The joined thread has left its closure and not exited. -/
def JoinedReady (c : Await V P W) : Prop :=
  (∃ v, c.join.body = .returned v) ∨ (∃ w v, c.join.body = .waking w v) ∨ ∃ v, c.join.body = .leaving v

/-- A poll of the `JoinFuture` has been called that does not wait for the joined thread to exit. -/
def PollReady (c : Await V P W) : Prop :=
  (∃ w, c.join.pc = .called w) ∨ c.join.pc = .joining ∧ ∃ r, c.join.body = .exited r

section Runs

variable {r : EndlessRun (step (V := V) (P := P) (W := W))} {t : TaskId} {rest : List Frame}

/-- The thread of the executor, or another thread acting on it, takes a step. -/
def ActsAt (r : EndlessRun (step (V := V) (P := P) (W := W))) (n : ℕ) (a : Action W) : Prop :=
  (r.state n).threadAction (r.action n) = some a

/-- An event of the thread of the executor. -/
def HappensAt (r : EndlessRun (step (V := V) (P := P) (W := W))) (n : ℕ) (e : Event) : Prop :=
  e ∈ (r.state n).thread.fresh (r.state (n + 1)).thread

/-- An endless run without a panic that is fair to a task which awaits the joined thread. -/
structure Fair (r : EndlessRun (step (V := V) (P := P) (W := W))) (t : TaskId) (rest : List Frame) :
    Prop where
  start : ReachableUnder step IsStart WakeReturns (r.state 0)
  wakeReturns : ∀ n, (r.state n).WakeReturns (r.action n)
  panicked : ∀ n, (r.state n).thread.panicked = none
  /-- The thread of the executor never stops for good. -/
  goesOn : ∀ n, ∃ m, n ≤ m ∧ r.Moves threadAction m
  /-- A loop goes on taking tasks as long as the task is runnable or a pointer is in the pipe. -/
  loop : ∀ n, (r.state n).thread.runnable t ∨ (r.state n).thread.executor.pipe ≠ [] →
    ∃ m a, n ≤ m ∧ ActsAt r m a ∧ Thread.TakesNext rest (r.state m).thread a
  /-- A pipe that stays non-empty is reported when `epoll_wait` is called again and again. -/
  reports : ∀ n, (∀ m, n ≤ m → (r.state m).thread.executor.pipe ≠ []) →
    (∀ j, ∃ m a, j ≤ m ∧ ActsAt r m a ∧ (r.state m).thread.waitsWith a ≠ none) →
      ∃ m a, n ≤ m ∧ ActsAt r m a ∧ .pipe ∈ (r.state m).thread.reported a
  /-- From some time on no tasks of higher priority are polled. -/
  priority : ∃ n₀, ∀ m u, n₀ ≤ m → HappensAt r m (.polled u) →
    ((r.state (m + 1)).thread.tasks t).priority ≤ ((r.state (m + 1)).thread.tasks u).priority
  /-- The joined thread goes on after its closure. -/
  joined : ∀ n, (∀ m, n ≤ m → (r.state m).JoinedReady) → ∃ m, n ≤ m ∧ (r.action m).isJoined = true
  /-- A poll of the `JoinFuture` goes on unless it waits for the joined thread to exit. -/
  poll : ∀ n, (∀ m, n ≤ m → (r.state m).PollReady) → ∃ m, n ≤ m ∧ (r.action m).isPoll = true
  /-- The task polls the `JoinFuture` when it is polled, with its own waker, until this is ready. -/
  awaits : ∀ n, HappensAt r n (.polled t) → ∃ m, n ≤ m ∧
    (r.action m = .join (.poll (.task t)) ∨ ∃ v, .ready v ∈ (r.state m).join.log)
  /-- No other task does. -/
  only : ∀ n w, (r.state n).join.pc = .called w → w = .task t

/-- A task that is runnable, or whose pointer is in the pipe, is polled. -/
lemma Fair.polled_of_delivered (h : Fair r t rest) (n : ℕ) (ht : (r.state n).thread.Ongoing t)
    (hw : (r.state n).thread.runnable t ∨ some t ∈ (r.state n).thread.executor.pipe) :
    (∃ m, n ≤ m ∧ (HappensAt r m (.polled t) ∨ HappensAt r m (.aborted t) ∨
      ((r.state (m + 1)).thread.tasks t).hasCompleted = true ∨ ∃ fd, ActsAt r m (.replace fd))) ∨
        ∀ k, ∃ m, k ≤ m ∧ HappensAt r m (.enqueued t) := by
  obtain ⟨r', f, hmono, hsteps, hto⟩ := isPart_thread.exists_run r h.goesOn
  obtain ⟨k, hk, hle, -⟩ := hto n
  -- What comes later in the whole run comes later in the run of the thread.
  have hback : ∀ {j m a}, f j ≤ m → ActsAt r m a → ∃ i, j ≤ i ∧ f i = m ∧ r'.action i = a := by
    intro j m a hjm ha
    obtain ⟨k', -, -, honto⟩ := hto (f j)
    obtain ⟨i, -, rfl⟩ := honto m hjm (by rw [EndlessRun.Moves, ha]; simp)
    exact ⟨i, hmono.le_iff_le.mp hjm, rfl, Option.some.inj ((hsteps i).1.symm.trans ha)⟩
  have hreach : Reachable Thread.step Thread.IsStart (r'.state 0) := by
    rw [(hsteps 0).2.1]
    exact reachable_thread (r.reachableUnder h.start h.wakeReturns (f 0))
  have hpanicked : ∀ j, (r'.state j).panicked = none := by
    intro j
    rw [(hsteps j).2.1]
    exact h.panicked (f j)
  have hloop : ∀ j, (r'.state j).runnable t ∨ (r'.state j).executor.pipe ≠ [] →
      ∃ m, j ≤ m ∧ Thread.TakesNext rest (r'.state m) (r'.action m) := by
    intro j hj
    rw [(hsteps j).2.1] at hj
    obtain ⟨m, a, hm, ha, htakes⟩ := h.loop (f j) hj
    obtain ⟨i, hi, rfl, rfl⟩ := hback hm ha
    exact ⟨i, hi, (hsteps i).2.1 ▸ htakes⟩
  have hreports : ∀ j, (∀ m, j ≤ m → (r'.state m).executor.pipe ≠ []) →
      (∀ i, ∃ m, i ≤ m ∧ (r'.state m).waitsWith (r'.action m) ≠ none) →
        ∃ m, j ≤ m ∧ .pipe ∈ (r'.state m).reported (r'.action m) := by
    intro j hpipe hwaits
    have hpipe' : ∀ m, f j ≤ m → (r.state m).thread.executor.pipe ≠ [] := by
      intro m hm
      obtain ⟨k', hk', hle', -⟩ := hto m
      exact hk' ▸ hpipe k' (hmono.le_iff_le.mp (hm.trans (hle' k' le_rfl)))
    have hwaits' : ∀ i, ∃ m a, i ≤ m ∧ ActsAt r m a ∧ (r.state m).thread.waitsWith a ≠ none := by
      intro i
      obtain ⟨k', -, hle', -⟩ := hto i
      obtain ⟨m, hm, hwait⟩ := hwaits k'
      exact ⟨f m, _, hle' m hm, (hsteps m).1, (hsteps m).2.1 ▸ hwait⟩
    obtain ⟨m, a, hm, ha, hread⟩ := h.reports (f j) hpipe' hwaits'
    obtain ⟨i, hi, rfl, rfl⟩ := hback hm ha
    exact ⟨i, hi, (hsteps i).2.1 ▸ hread⟩
  have hpriority : ∃ n₀, ∀ m u, n₀ ≤ m → .polled u ∈ (r'.state m).fresh (r'.state (m + 1)) →
      ((r'.state (m + 1)).tasks t).priority ≤ ((r'.state (m + 1)).tasks u).priority := by
    obtain ⟨n₀, hprio⟩ := h.priority
    obtain ⟨k', -, hle', -⟩ := hto n₀
    refine ⟨k', fun m u hm hu => ?_⟩
    rw [(hsteps m).2.1, (hsteps m).2.2] at hu
    rw [(hsteps m).2.2]
    exact hprio (f m) u (hle' m hm) hu
  refine (Thread.delivered_task_polled hreach hpanicked hloop hreports hpriority k (hk ▸ ht)
    (hk ▸ hw)).imp ?_ ?_
  · rintro ⟨m, hm, hex⟩
    rw [(hsteps m).2.1, (hsteps m).2.2] at hex
    refine ⟨f m, hle m hm, hex.imp_right (Or.imp_right (Or.imp_right ?_))⟩
    rintro ⟨fd, hfd⟩
    exact ⟨fd, (hsteps m).1.trans (congrArg some hfd)⟩
  · intro henq j
    obtain ⟨k', -, hle', -⟩ := hto j
    obtain ⟨m, hm, he⟩ := henq k'
    rw [(hsteps m).2.1, (hsteps m).2.2] at he
    exact ⟨f m, hle' m hm, he⟩

/-- The states of the run. -/
lemma Fair.reachable (h : Fair r t rest) (n : ℕ) : ReachableUnder step IsStart WakeReturns (r.state n) :=
  r.reachableUnder h.start h.wakeReturns n

/-- The task is aborted or completes, or `run` gets out of its loop. -/
def Dismissed (r : EndlessRun (step (V := V) (P := P) (W := W))) (t : TaskId) (n : ℕ) : Prop :=
  HappensAt r n (.aborted t) ∨ ((r.state (n + 1)).thread.tasks t).hasCompleted = true ∨
    ∃ fd, ActsAt r n (.replace fd)

/-- Unless this happens the task goes on. -/
lemma Fair.ongoing (h : Fair r t rest) {n : ℕ} (ht : (r.state n).thread.Ongoing t)
    (hnot : ∀ m, n ≤ m → ¬ Dismissed r t m) {m : ℕ} (hnm : n ≤ m) : (r.state m).thread.Ongoing t := by
  induction m, hnm using Nat.le_induction with
  | base => exact ht
  | succ m hnm ih =>
    have hstep := isPart_thread _ _ _ (r.next m)
    have hdismissed := hnot m hnm
    simp only [Dismissed, not_or, not_exists, ActsAt, Bool.not_eq_true] at hdismissed
    obtain ⟨haborted, hc, hreplace⟩ := hdismissed
    cases ha : (r.state m).threadAction (r.action m) with
    | none =>
      rw [ha] at hstep
      exact Option.some.inj hstep ▸ ih
    | some a =>
      rw [ha] at hstep hreplace
      exact ih.next (reachable_thread (h.reachable m)) hstep (h.panicked (m + 1))
        (Thread.cur_of_step hstep fun fd hfd => hreplace (some fd) (hfd ▸ rfl)) haborted hc

/-- The joined thread takes its next step. -/
lemma Fair.joined_next (h : Fair r t rest) {n : ℕ} (hready : (r.state n).JoinedReady) :
    ∃ m, n ≤ m ∧ ((r.state m).join.body = (r.state n).join.body ∧
      (r.state m).upgraded = (r.state n).upgraded) ∧ (r.action m).isJoined = true := by
  refine EndlessRun.exists_taken (P := fun m => (r.state m).join.body = (r.state n).join.body ∧
    (r.state m).upgraded = (r.state n).upgraded) ⟨rfl, rfl⟩ (fun m _ hm hnot => ?_) fun hm => ?_
  · obtain ⟨hbody, hu⟩ := body_of_step (r.next m) (Bool.eq_false_iff.mpr hnot)
    exact ⟨hbody.trans hm.1, hu.trans hm.2⟩
  · refine h.joined n fun m hnm => ?_
    rw [JoinedReady, (hm m hnm).1]
    exact hready

/-- The joined thread takes the waker of the task that waits for it out of the state. -/
lemma Fair.takes_waker (h : Fair r t rest) {n : ℕ} {v : V} (hbody : (r.state n).join.body = .returned v)
    (hstate : (r.state n).join.state = .running (.task t)) :
    ∃ m, n ≤ m ∧ (r.state m).join.body = .waking (.task t) v := by
  obtain ⟨m, hnm, ⟨hbody', hstate'⟩, hjoined⟩ := EndlessRun.exists_taken
    (P := fun m => (r.state m).join.body = .returned v ∧ (r.state m).join.state = .running (.task t))
    (E := fun m => (r.action m).isJoined = true) ⟨hbody, hstate⟩
    (fun m hm hP hnot => by
      have hnot := Bool.eq_false_iff.mpr hnot
      exact ⟨(body_of_step (r.next m) hnot).1.trans hP.1, state_of_step (r.next m) hnot hP.2 (h.only m)⟩)
    (fun hP => h.joined n fun m hm => .inl ⟨v, (hP m hm).1⟩)
  exact ⟨m + 1, by omega, (complete_of_step (r.next m) hjoined hbody' hstate').1⟩

/-- The joined thread wakes the task that waits for it. -/
lemma Fair.wakes (h : Fair r t rest) {n : ℕ} {v : V}
    (hbody : (r.state n).join.body = .waking (.task t) v)
    (ht : ∀ m, n ≤ m → (r.state m).thread.Ongoing t) :
    ∃ m, n ≤ m ∧ (r.state m).Left v ∧ WakePending t (r.state m).thread.log := by
  -- First it upgrades the weak pointer of the task,
  obtain ⟨m₁, hm₁, hbody₁, hu₁⟩ : ∃ m, n ≤ m ∧
      (r.state m).join.body = .waking (.task t) v ∧ (r.state m).upgraded = true := by
    cases hu : (r.state n).upgraded with
    | true => exact ⟨n, le_rfl, hbody, hu⟩
    | false =>
      obtain ⟨m, hnm, ⟨hbody', hu'⟩, hjoined⟩ := h.joined_next (.inr (.inl ⟨_, v, hbody⟩))
      rw [hbody] at hbody'
      obtain ⟨payload, ha⟩ := wake_of_step (r.next m) hjoined hbody'
      have hs := r.next m
      rw [ha] at hs
      have hm := ht m hnm
      have halive := Thread.alive_of_kept (reachable_thread (h.reachable m)) (h.panicked m) hm.lt hm.exec
        hm.completed hm.aborted
      obtain ⟨hjoin, hup, -⟩ := upgrade_of_step hs hbody' (hu'.trans hu) hm.lt halive
      exact ⟨m + 1, by omega, hjoin ▸ hbody', hup⟩
  -- and then it writes to the pipe.
  obtain ⟨m, hm, ⟨hbody', hu'⟩, hjoined⟩ := h.joined_next (.inr (.inl ⟨_, v, hbody₁⟩))
  rw [hbody₁] at hbody'
  obtain ⟨payload, ha⟩ := wake_of_step (r.next m) hjoined hbody'
  have hs := r.next m
  have hC := h.wakeReturns m
  rw [ha] at hs hC
  obtain ⟨hleaving, hlog⟩ := write_of_step hs hC hbody' (hu'.trans hu₁)
  refine ⟨m + 1, by omega, .inl hleaving, ?_⟩
  rw [hlog]
  exact .inl rfl

/-- By then it has replaced the state, and its closure has returned the value. -/
lemma facts_of_left {v : V} (hleft : c.Left v) (h : ReachableUnder step IsStart WakeReturns c) :
    c.join.state = .complete ∧ .returned v ∈ c.join.log := by
  have hb := Join.bodyOk_of_reachable (reachable_join h)
  unfold Join.BodyOk at hb
  rcases hleft with hbody | hbody <;> rw [hbody] at hb <;> exact ⟨hb.1, hb.2.2⟩

/-- Once it has left its wake behind, it stays so. -/
lemma left_later {n m : ℕ} {v : V} (hleft : (r.state n).Left v) (hnm : n ≤ m) : (r.state m).Left v := by
  induction m, hnm using Nat.le_induction with
  | base => exact hleft
  | succ m hnm ih => exact ih.step (r.next m)

/-- The joined thread exits, and stays so. -/
lemma Fair.exits (h : Fair r t rest) {n : ℕ} {v : V} (hleft : (r.state n).Left v) :
    ∃ k, ∀ m, k ≤ m → (r.state m).join.body = .exited (.ok v) := by
  obtain ⟨k, hk⟩ : ∃ k, (r.state k).join.body = .exited (.ok v) := by
    rcases hleft with hleaving | hexited
    · obtain ⟨m, -, ⟨hbody, -⟩, hjoined⟩ := h.joined_next (.inr (.inr ⟨v, hleaving⟩))
      exact ⟨m + 1, exit_of_step (r.next m) hjoined (hbody.trans hleaving)⟩
    · exact ⟨n, hexited⟩
  refine ⟨k, fun m hkm => ?_⟩
  induction m, hkm using Nat.le_induction with
  | base => exact hk
  | succ m hkm ih => exact exited_of_step ih (r.next m)

/-- A poll that is called then returns the value. -/
lemma Fair.receives (h : Fair r t rest) {n : ℕ} {v : V} (hleft : (r.state n).Left v)
    (hcall : r.action n = .join (.poll (.task t))) : ∃ m, n ≤ m ∧ .ready (.ok v) ∈ (r.state m).join.log := by
  have hs := r.next n
  rw [hcall] at hs
  -- It takes the join handle,
  obtain ⟨m₁, hm₁, ⟨hpc, hhandle⟩, hpoll⟩ := EndlessRun.exists_taken
    (P := fun m => (r.state m).join.pc = .called (.task t) ∧ (r.state m).join.joinHandle = true)
    (E := fun m => (r.action m).isPoll = true) (called_of_step hs)
    (fun m _ hP hnot => by
      obtain ⟨hpc, hhandle⟩ := pc_of_step (r.next m) (Bool.eq_false_iff.mpr hnot) (by simp [hP.1])
      exact ⟨hpc.trans hP.1, hhandle.trans hP.2⟩)
    (fun hP => h.poll (n + 1) fun m hm => .inl ⟨_, (hP m hm).1⟩)
  have hstate := (facts_of_left (left_later hleft (by omega)) (h.reachable m₁)).1
  have hjoining := took_of_step (r.next m₁) hpoll hpc hstate hhandle
  -- and waits for the joined thread to exit.
  obtain ⟨k, hk⟩ := h.exits hleft
  obtain ⟨m₂, hm₂, hpc₂, hpoll₂⟩ := EndlessRun.exists_taken
    (P := fun m => (r.state m).join.pc = .joining) (E := fun m => (r.action m).isPoll = true) hjoining
    (fun m _ hP hnot =>
      (pc_of_step (r.next m) (Bool.eq_false_iff.mpr hnot) (by simp [hP])).1.trans hP)
    (fun hP => by
      obtain ⟨m, hm, hpoll⟩ := h.poll (max k (m₁ + 1)) fun m hm =>
        .inr ⟨hP m ((le_max_right _ _).trans hm), _, hk m ((le_max_left _ _).trans hm)⟩
      exact ⟨m, (le_max_right _ _).trans hm, hpoll⟩)
  obtain ⟨res, hbody, hready⟩ := ready_of_step (r.next m₂) hpoll₂ hpc₂
  have hres : res = .ok v := by
    rcases left_later hleft (show n ≤ m₂ by omega) with hleaving | hexited
    · simp [hleaving] at hbody
    · exact ThreadBody.exited.inj (hbody.symm.trans hexited)
  exact ⟨m₂ + 1, by omega, hres ▸ hready⟩

/-- When the closure has returned while the task waits for it, the task receives its value in every endless
run that is fair to it, unless it is aborted or completes, `run` gets out of its loop, or the task is enqueued
over and over again. -/
theorem join_completes (h : Fair r t rest) {n : ℕ} {v : V} (hbody : (r.state n).join.body = .returned v)
    (hstate : (r.state n).join.state = .running (.task t)) (ht : (r.state n).thread.Ongoing t) :
    (∃ m, n ≤ m ∧ .ready (.ok v) ∈ (r.state m).join.log) ∨ (∃ m, n ≤ m ∧ Dismissed r t m) ∨
      ∀ k, ∃ m, k ≤ m ∧ HappensAt r m (.enqueued t) := by
  by_contra hnever
  simp only [not_or, not_exists, not_and] at hnever
  obtain ⟨hnot, hstays, hquiet⟩ := hnever
  have hongoing : ∀ m, n ≤ m → (r.state m).thread.Ongoing t := fun m => h.ongoing ht hstays
  -- The joined thread wakes the task,
  obtain ⟨m₁, hm₁, hwaking⟩ := h.takes_waker hbody hstate
  obtain ⟨m₂, hm₂, hleft, hw⟩ := h.wakes hwaking fun m hm => hongoing m (hm₁.trans hm)
  have hnm₂ := hm₁.trans hm₂
  have ht₂ := hongoing m₂ hnm₂
  have hdelivered := ht₂.delivered (reachable_thread (h.reachable m₂)) (h.panicked m₂) hw
  -- which is polled, and polls the `JoinFuture`.
  obtain ⟨m₃, hm₃, hpolled | hdismissed⟩ := (h.polled_of_delivered m₂ ht₂ hdelivered).resolve_right hquiet
  · obtain ⟨m₄, hm₄, hcall | ⟨res, hready⟩⟩ := h.awaits m₃ hpolled
    · obtain ⟨m, hm, hready⟩ := h.receives (left_later hleft (hm₃.trans hm₄)) hcall
      exact hnot m (((hnm₂.trans hm₃).trans hm₄).trans hm) hready
    · have hreturned := (facts_of_left (left_later hleft (hm₃.trans hm₄)) (h.reachable m₄)).2
      obtain rfl := eq_of_ready (h.reachable m₄) hreturned hready
      exact hnot m₄ ((hnm₂.trans hm₃).trans hm₄) hready
  · exact hstays m₃ (hnm₂.trans hm₃) hdismissed

end Runs

/-- The code of the executor's thread goes on for ever. -/
def idle (c : Await V P W) (hp : c.thread.panicked = none) (hu : c.thread.inUserCode = true)
    (hpc : c.join.pc = .idle) : EndlessRun (step (V := V) (P := P) (W := W)) where
  state _ := c
  action _ := .thread (.wake .noop (.error .other))
  next _ := step_eq_some.mpr ⟨.inl hpc, (c.thread.idle hp hu).next 0, rfl, rfl⟩

/-- It does not wake. -/
lemma idle_wakeReturns (hp : c.thread.panicked = none) (hu : c.thread.inUserCode = true)
    (hpc : c.join.pc = .idle) (n : ℕ) :
    ((c.idle hp hu hpc).state n).WakeReturns ((c.idle hp hu hpc).action n) := by
  simp [WakeReturns, joinAction, idle]

/-- Nothing has panicked, and only the first task polls the `JoinFuture`. -/
def Quiet (c : Await V P W) (a : AwaitAction V P W) : Prop :=
  c.thread.panicked = none ∧ c.WakeReturns a ∧
    (c.join.pc = .idle ∨ c.join.pc = .called (.task 0) ∨ c.join.pc = .joining)

instance (c : Await V P W) (a : AwaitAction V P W) : Decidable (c.Quiet a) := by
  unfold Quiet
  infer_instance

/-- A task awaits a thread whose closure returns 7. -/
theorem join_completes_of_thread : ∃ (r : EndlessRun (step (V := ℕ) (P := Unit) (W := Unit))),
    (r.state 0).join.body = .returned 7 ∧ (r.state 0).join.state = .running (.task 0) ∧
      (r.state 0).thread.stack = [.run .waitNone, .user] ∧
      ((∃ m, 0 ≤ m ∧ .ready (.ok 7) ∈ (r.state m).join.log) ∨ (∃ m, 0 ≤ m ∧ Dismissed r 0 m) ∨
        ∀ k, ∃ m, k ≤ m ∧ HappensAt r m (.enqueued 0)) := by
  -- The task goes to sleep; the joined thread wakes it and exits; the task is polled and polls again.
  obtain ⟨s, hs, h⟩ := Thread.exists_reachable (V := Unit) [.spawn .normal, .run, .go (.ok [])] (fun s =>
    (exec step (fun c a => decide (Quiet c a)) (⟨s, Join.start ℕ Unit, false⟩ : Await ℕ Unit Unit)
      [.join (.poll (.task 0)), .join .lock, .thread .pending, .thread (.go (.ok [])),
        .thread (.go (.ok [])), .thread (.go (.ok [])), .thread (.go (.ok [])), .thread (.go (.ok [])),
        .join (.returns 7)]).any fun c₀ : Await ℕ Unit Unit =>
    (exec step (fun c a => decide (Quiet c a)) c₀
      [.join .complete, .wake (), .wake (), .join .exit, .thread (.go (.ok [.pipe]))]).any
        fun c₁ : Await ℕ Unit Unit =>
    (c₁.step (.thread (.go (.ok [])))).any fun c₂ : Await ℕ Unit Unit =>
    (exec step (fun c a => decide (Quiet c a ∧ ¬ c.thread.runnable 0 ∧ c.thread.executor.pipe = [])) c₂
      [.join (.poll (.task 0)), .join .lock, .join .join]).any fun c₃ : Await ℕ Unit Unit => decide (
        (c₀.join.body = .returned 7 ∧ c₀.join.state = .running (.task 0) ∧
          c₀.thread.stack = [.run .waitNone, .user]) ∧
        (0 < c₀.thread.nTasks ∧ (c₀.thread.tasks 0).exec = c₀.thread.cur ∧
          (c₀.thread.tasks 0).hasCompleted = false ∧ .aborted 0 ∉ c₀.thread.log) ∧
        (Quiet c₁ (.thread (.go (.ok []))) ∧ c₁.thread.stack = [.run .select, .user]) ∧
        (c₃.thread.panicked = none ∧ c₃.thread.inUserCode = true ∧ c₃.join.pc = .idle) ∧
        (¬ c₃.thread.runnable 0 ∧ c₃.thread.executor.pipe = []) ∧
        c₃.join.body = .exited (.ok 7) ∧ .ready (.ok 7) ∈ c₃.join.log)) (by decide)
  obtain ⟨c₀, hexec₀, h⟩ := (Option.any_eq_true _ _).mp h
  obtain ⟨c₁, hexec₁, h⟩ := (Option.any_eq_true _ _).mp h
  obtain ⟨c₂, hs₂, h⟩ := (Option.any_eq_true _ _).mp h
  obtain ⟨c₃, hexec₃, h⟩ := (Option.any_eq_true _ _).mp h
  obtain ⟨⟨hbody, hstate, hstack⟩, ⟨hlt, hexec, hc, hab⟩, ⟨hquiet₁, hstack₁⟩, ⟨hp₃, hu₃, hpc₃⟩,
    ⟨hrun₃, hpipe₃⟩, hbody₃, hready₃⟩ := of_decide_eq_true h
  have hreach : ReachableUnder step IsStart WakeReturns c₀ :=
    .of_exec (fun c a h => (of_decide_eq_true h).2.1) (.init ⟨hs, rfl, rfl⟩) hexec₀
  obtain ⟨r₂, rfl, hstates₂, hlater₂⟩ := EndlessRun.exists_of_exec (r := c₃.idle hp₃ hu₃ hpc₃) hexec₃
  obtain ⟨r, rfl, hstates, hlater⟩ :=
    EndlessRun.exists_of_exec (r := .cons c₁ (.thread (.go (.ok []))) r₂ hs₂) hexec₁
  have htakes : r.state 5 = c₁ ∧ r.action 5 = .thread (.go (.ok [])) := hlater 0
  have hlate : ∀ m, r.state (6 + m) = r₂.state m ∧ r.action (6 + m) = r₂.action m := fun m => by
    rw [show 6 + m = 5 + (m + 1) by omega]
    exact hlater (m + 1)
  have hend : ∀ n, r.state (9 + n) = c₃ ∧ r.action (9 + n) = .thread (.wake .noop (.error .other)) :=
      fun n => by
    rw [show 9 + n = 6 + (3 + n) by omega, (hlate _).1, (hlate _).2]
    exact hlater₂ n
  have hquiet : ∀ n, (r.state n).Quiet (r.action n) := fun n => by
    have hquiet₂ : ∀ m, (r₂.state m).Quiet (r₂.action m) := fun m => by
      rcases hstates₂ m with ⟨a, rfl, hok⟩ | ⟨k, hs, ha⟩
      · exact (of_decide_eq_true hok).1
      · rw [hs, ha]
        exact ⟨hp₃, idle_wakeReturns hp₃ hu₃ hpc₃ k, .inl hpc₃⟩
    rcases hstates n with ⟨a, rfl, hok⟩ | ⟨m, hs, ha⟩
    · exact of_decide_eq_true hok
    · rw [hs, ha]
      cases m with
      | zero => exact hquiet₁
      | succ m => exact hquiet₂ m
  have hempty : ∀ m, ¬ (r₂.state m).thread.runnable 0 ∧ (r₂.state m).thread.executor.pipe = [] := fun m => by
    rcases hstates₂ m with ⟨a, -, hok⟩ | ⟨k, hs, -⟩
    · exact (of_decide_eq_true hok).2
    · rw [hs]
      exact ⟨hrun₃, hpipe₃⟩
  have hpipe : ∀ n, (r.state (9 + n)).thread.executor.pipe = [] := fun n => by rw [(hend n).1, hpipe₃]
  have hfair : Fair r 0 [.user] := by
    refine ⟨hreach, fun n => (hquiet n).2.1, fun n => (hquiet n).1, fun n => ⟨9 + n, by omega, ?_⟩,
      fun n hn => ?_, fun n hn => ?_, ⟨9, fun m u hm hu => ?_⟩, fun n hn => ?_, fun n hn => ?_,
      fun n _ => ⟨9 + n, by omega, .inr ⟨.ok 7, ?_⟩⟩, fun n w hw => ?_⟩
    · rw [EndlessRun.Moves, (hend n).2]
      simp [threadAction]
    · rcases lt_or_ge n 6 with hlt | hge
      · refine ⟨5, .go (.ok []), by omega, ?_, .run .select, .ok [], ?_, by simp [Frame.loop], rfl⟩
        · rw [ActsAt, htakes.2]
          rfl
        · rw [htakes.1]
          exact hstack₁
      · obtain ⟨m, rfl⟩ := Nat.exists_eq_add_of_le hge
        rw [(hlate m).1] at hn
        exact absurd hn (not_or.mpr ⟨(hempty m).1, not_not.mpr (hempty m).2⟩)
    · exact absurd (hpipe n) (hn (9 + n) (by omega))
    · obtain ⟨m, rfl⟩ := Nat.exists_eq_add_of_le hm
      rw [HappensAt, (hend m).1, Nat.add_assoc, (hend (m + 1)).1] at hu
      simp [Thread.fresh] at hu
    · have hready := hn (9 + n) (by omega)
      simp [JoinedReady, (hend n).1, hbody₃] at hready
    · have hready := hn (9 + n) (by omega)
      simp [PollReady, (hend n).1, hpc₃] at hready
    · rw [(hend n).1]
      exact hready₃
    · rcases (hquiet n).2.2 with hpc | hpc | hpc <;> simp [hpc] at hw
      exact hw.symm
  exact ⟨r, hbody, hstate, hstack, join_completes hfair hbody hstate ⟨hlt, hexec, hc, hab⟩⟩

end Await

end Epox

import Epox.Executor.Completion
import Epox.Scheduler.Order

/-!
# Shutdown

The shutdown flag is tested in one place, by `run` after it has polled a task.  An observer
(`ShutdownPoint`) notes the poll that has set the flag of the current executor, and when this poll, or the
call that set the flag outside of any poll, is over.  From then on no task should be polled, and `run`
should return as soon as control is back in it.

This holds in every run in which no `block_on` finds a runnable task from then on, and `run` is not
entered with the flag set while tasks are queued (`shutdown_ends_run`).
-/

namespace Epox

/-- What an observer knows of the point at which the shutdown flag was set. -/
structure ShutdownPoint where
  /-- The height of the stack at the poll that has set the flag and is still in progress. -/
  setter : Option ℕ
  /-- The poll or call that has set the flag is over. -/
  ended : Bool
  deriving DecidableEq

/-- The flag has not been set. -/
def ShutdownPoint.none : ShutdownPoint := ⟨Option.none, false⟩

/-- A poll of a future is in progress. -/
def Frame.isPolling : Frame → Bool
  | .runTask _ .polling | .blockOn _ .polling => true
  | _ => false

/-- The height of the stack at the innermost poll in progress. -/
def innermostPoll : List Frame → Option ℕ
  | [] => none
  | f :: rest => if f.isPolling then some (rest.length + 1) else innermostPoll rest

namespace Thread

variable {V : Type} {s s' : Thread V}

/-- How the observer follows a step. -/
def observeShutdown (s : Thread V) (a : Action V) (_ : Thread V) (g : ShutdownPoint) :
    ShutdownPoint :=
  match a with
  | .shutdown =>
    if s.executor.shutdown then
      g
    else
      match innermostPoll s.stack with
      | some h => ⟨some h, false⟩
      | none => ⟨none, true⟩
  | .pending | .ready _ => if g.setter = some s.stack.length then ⟨none, true⟩ else g
  | .replace (some _) => .none
  | _ => g

/-- A thread and what the observer knows. -/
abbrev Observed (V : Type) := Thread V × ShutdownPoint

/-- A thread at its start. -/
abbrev ObservedStart (p : Observed V) : Prop := p.1.IsStart ∧ p.2 = .none

/-- No task is queued on the executor of the thread. -/
def Empty (s : Thread V) : Prop :=
  s.queues.list (s.cur, .runqHigh) = [] ∧ s.queues.list (s.cur, .runqNormal) = [] ∧
    s.queues.list (s.cur, .runqLow) = [] ∧ s.queues.list (s.cur, .sleepq) = []

instance (s : Thread V) : Decidable s.Empty := by
  unfold Empty
  infer_instance

/-- A `block_on` is about to take the next runnable task. -/
def blockOnSelects (s : Thread V) : Bool :=
  match s.stack with
  | .blockOn _ .select :: _ => true
  | _ => false

/-- The step does not go on after a shutdown: a `block_on` that is about to take a task finds none once
the poll or call that has set the flag is over; with the flag set `run` is only entered if no task is
queued, or within this poll with a runnable task; and the executor can be replaced if the flag is set and
tasks are queued. -/
def Stops (p : Observed V) : Action V → Prop
  | .go _ => p.1.blockOnSelects = true → p.2.ended = true → p.1.front = none
  | .run => p.1.executor.shutdown = true → p.1.Empty ∨ p.2.ended = false ∧ p.1.front ≠ none
  | .replace none => p.1.executor.shutdown = true → p.1.Empty
  | _ => True

instance (p : Observed V) (a : Action V) : Decidable (Stops p a) := by
  unfold Stops
  split <;> infer_instance

/-! ## The flag -/

/-- Changing an executor but not its flag. -/
lemma shutdown_setExec (s : Thread V) {x : ExecId} {e : Executor}
    (he : e.shutdown = (s.execs x).shutdown) :
    (s.setExec x e).executor.shutdown = s.executor.shutdown := by
  by_cases hx : s.cur = x
  · simp [executor, setExec, hx, he]
  · simp [executor, setExec, hx]

/-- The effects of wakes leave the flag alone. -/
lemma Effects.shutdown (h : Effects s s') : s'.executor.shutdown = s.executor.shutdown := by
  rw [executor, h.untouched.cur]
  exact h.untouched.shutdown s.cur

/-- Creating an `Fd` leaves the flag alone. -/
lemma fdNew_shutdown (s : Thread V) (raw : RawFd) (events : EpollFlags) (fcntl ctl : Bool) :
    (s.fdNew raw events fcntl ctl).executor.shutdown = s.executor.shutdown := by
  have hdrop : ∀ (s : Thread V) f, (s.fdDrop f).executor.shutdown = s.executor.shutdown :=
    fun s f => shutdown_setExec s rfl
  have hadd : ∀ fd interest, (s.addFd fd interest).executor.shutdown = s.executor.shutdown :=
    fun fd interest => by simp [addFd, executor, setExec]
  rcases fdNew_cases s raw events fcntl ctl with h | ⟨fd, interest, -, -, h | h⟩ <;> rw [h]
  · exact hadd fd interest
  · exact (hdrop _ _).trans (hadd fd interest)

/-- The flag of the executor changes only when it is set, or the executor replaced. -/
lemma Move.shutdown_eq {a : Action V} (hm : Move s a s') :
    s'.executor.shutdown = s.executor.shutdown ∨ a = .shutdown ∧ s'.executor.shutdown = true ∨
      ∃ fd, a = .replace (some fd) := by
  cases hm with
  | stay hu heff => exact .inl heff.shutdown
  | jump hstack hj => exact .inl hj.effects.shutdown
  | crash heff hp => exact .inl heff.shutdown
  | repoll hstack hpc heff => exact .inl heff.shutdown
  | @close k x rest hstack => exact .inl (shutdown_setExec s rfl)
  | spawn hu =>
    rw [Thread.spawn, enqueue_of_not_completed (by simp)]
    exact .inl rfl
  | shutdown hu => exact .inr (.inl ⟨rfl, by simp [executor, setExec]⟩)
  | fdNew hu => exact .inl (fdNew_shutdown s _ _ _ _)
  | fdDrop hu hlive => exact .inl (shutdown_setExec s rfl)
  | foreignWrite => exact .inl (foreignWrite_effects s _).shutdown
  | foreignBlockOn => exact .inl (foreignBlockOn_effects s _).shutdown
  | @replace fd rest hstack hfd => exact .inr (.inr ⟨fd, rfl⟩)
  | _ => exact .inl rfl

/-- What the observer has noted: the flag is set. -/
def Noted (p : Observed V) : Prop :=
  p.2.ended = true ∨ p.2.setter ≠ none → p.1.executor.shutdown = true

/-- Every step keeps what the observer has noted. -/
lemma noted_step {p p' : Observed V} {a : Action V} (h : observe step observeShutdown p a = some p')
    (hn : Noted p) : Noted p' := by
  obtain ⟨hs, hg⟩ := observe_eq_some.mp h
  have hm := (move_of_step hs).2
  have hkeep : p'.2 = p.2 → a ≠ .shutdown → (∀ fd, a ≠ .replace (some fd)) → Noted p' := by
    intro hg hne hne' hover
    rcases hm.shutdown_eq with heq | ⟨ha, -⟩ | ⟨fd, ha⟩
    · exact heq.trans (hn (hg ▸ hover))
    · exact absurd ha hne
    · exact absurd ha (hne' fd)
  have hpoll : ∀ b : Prop, [Decidable b] → (b → p.2.setter ≠ none) →
      p'.2 = (if b then ⟨none, true⟩ else p.2) → a ≠ .shutdown →
        (∀ fd, a ≠ .replace (some fd)) → Noted p' := by
    intro b _ hb hg hne hne'
    by_cases hb' : b
    · intro _
      rcases hm.shutdown_eq with heq | ⟨ha, -⟩ | ⟨fd, ha⟩
      · exact heq.trans (hn (.inr (hb hb')))
      · exact absurd ha hne
      · exact absurd ha (hne' fd)
    · exact hkeep (hg.trans (if_neg hb')) hne hne'
  cases a with
  | shutdown =>
    intro _
    rcases hm.shutdown_eq with heq | ⟨-, hset⟩ | ⟨fd, ha⟩
    · obtain ⟨-, hp'⟩ := call_eq_some.mp (act_of_step hs)
      simp [hp', executor, setExec]
    · exact hset
    · exact absurd ha (by simp)
  | pending | ready v =>
    exact hpoll (p.2.setter = some p.1.stack.length) (fun h => by simp [h]) hg (by simp) (by simp)
  | replace fd =>
    cases fd with
    | none => exact hkeep hg (by simp) (by simp)
    | some fd =>
      intro hover
      simp [hg, observeShutdown, ShutdownPoint.none] at hover
  | _ => exact hkeep hg (by simp) (by simp)

/-! ## What is on top of the stack -/

/-- With the flag set the frame on top of the stack does not go on for long: it is not about to wait for
events, and it is about to take a task only within the poll that has set the flag. -/
def Frame.Ends (p : Observed V) : Frame → Prop
  | .run .select => p.1.Empty ∨ p.2.ended = false ∧ p.1.front ≠ none
  | .run .checkSleepq => p.1.Empty
  | .run .waitZero | .run .waitNone => False
  | _ => True

/-- With the flag set the call of `run` on top of the stack ends. -/
def Ending (p : Observed V) : Prop :=
  ∀ f rest, p.1.stack = f :: rest → p.1.executor.shutdown = true → Frame.Ends p f

/-- Code of the caller does not go on after a shutdown by itself, nor does library code outside of the
loops. -/
lemma Frame.ends_of {p : Observed V} {f : Frame} (h : f.calling = true ∨ f.passing = true) :
    Frame.Ends p f := by
  cases f with
  | run pc => cases pc <;> trivial
  | _ => trivial

/-- With the flag set `run` replaces the executor after polling a task. -/
lemma step_afterTask {k : KernelAnswer} {rest : List Frame} (hstack : s.stack = .run .afterTask :: rest)
    (hshutdown : s.executor.shutdown = true) (h : s.step (.go k) = some s') :
    s'.stack = .run .replace :: rest := by
  have hgo := (go_of_step h).2
  simp only [go, hstack, goRun, hshutdown, if_true] at hgo
  obtain rfl := Option.some.inj hgo
  rfl

/-- `run` replaces the executor if no task is asleep. -/
lemma step_checkSleepq {k : KernelAnswer} {rest : List Frame}
    (hstack : s.stack = .run .checkSleepq :: rest) (hempty : s.Empty)
    (h : s.step (.go k) = some s') : s'.stack = .run .replace :: rest := by
  have hgo := (go_of_step h).2
  simp only [go, hstack, goRun, hempty.2.2.2, List.isEmpty_nil, if_true] at hgo
  obtain rfl := Option.some.inj hgo
  rfl

/-- No task is runnable if none is queued. -/
lemma Empty.front (h : s.Empty) : s.front = none := by
  simp [Thread.front, h.1, h.2.1, h.2.2.1]

/-- What does not disturb a thread does not keep it from ending. -/
lemma Undisturbed.ending {p p' : Observed V} (hu : Undisturbed p.1 p'.1) (hg : p'.2 = p.2)
    (h : Ending p) : Ending p' := by
  intro f rest hf hs
  have hends := h f rest (hu.stack ▸ hf) (hu.shutdown ▸ hs)
  have hempty : p'.1.Empty ↔ p.1.Empty := by simp only [Empty, hu.cur, hu.queues]
  have hfront := hu.front
  cases f with
  | run pc => cases pc <;> simp_all [Frame.Ends]
  | _ => trivial

/-- When the observer notes something, code of the caller is on top of the stack, or `run` about to replace
the executor. -/
lemma ends_or_same {p p' : Observed V} {a : Action V} (hs : p.1.step a = some p'.1)
    (hg : p'.2 = p.1.observeShutdown a p'.1 p.2) {f : Frame} {rest : List Frame}
    (hstack : p.1.stack = f :: rest) : Frame.Ends p' f ∨ p'.2 = p.2 := by
  have hact := act_of_step hs
  cases a with
  | shutdown =>
    obtain ⟨hu, -⟩ := call_eq_some.mp hact
    exact .inl (Frame.ends_of (.inl (calling_of_inUserCode hstack hu)))
  | pending =>
    simp only [act, Thread.pending, hstack] at hact
    cases f with
    | run pc => simp at hact
    | _ => exact .inl trivial
  | ready v =>
    simp only [act, Thread.ready, hstack] at hact
    cases f with
    | run pc => simp at hact
    | _ => exact .inl trivial
  | replace fd =>
    simp only [act, hstack] at hact
    cases f with
    | run pc => cases pc <;> first | exact .inl trivial | simp at hact
    | _ => exact .inl trivial
  | _ => exact .inr hg

/-- Every step that does not go on after a shutdown keeps the top of the stack ending. -/
lemma ending_step {p p' : Observed V} {a : Action V} (h : observe step observeShutdown p a = some p')
    (hwf : p.1.Wf) (hp : p'.1.panicked = none) (hC : Stops p a) (he : Ending p) : Ending p' := by
  obtain ⟨hs, hg⟩ := observe_eq_some.mp h
  have hm := (move_of_step hs).2
  intro f rest hstack' hshutdown
  cases hm.top hwf hp with
  | calling hcalling =>
    exact Frame.ends_of (.inl (hcalling f (by simp [hstack'])))
  | passing hstack hpassing =>
    obtain ⟨rfl, -⟩ := List.cons.inj (hstack'.symm.trans hstack)
    exact Frame.ends_of (.inr hpassing)
  | @jump f₀ g fs rest₀ s₁ hstack hj hs₁ =>
    obtain ⟨rfl, -⟩ : g = f ∧ _ := by
      rw [hs₁] at hstack'
      exact List.cons.inj hstack'
    have hbefore : p.1.executor.shutdown = true → Frame.Ends p f₀ := he f₀ rest₀ hstack
    have hshutdown₁ : p.1.executor.shutdown = true := by
      rw [hs₁] at hshutdown
      exact hj.effects.shutdown ▸ hshutdown
    cases hj with
    | enterRun hu =>
      have hrun := hC hshutdown₁
      simp only [Frame.Ends, hs₁, hg, observeShutdown]
      exact hrun
    | runIdle hfront =>
      have hempty := (hbefore hshutdown₁).resolve_right fun h => h.2 hfront
      simp only [Frame.Ends, hs₁]
      exact hempty
    | afterTask =>
      have htop := step_afterTask hstack hshutdown₁ hs
      rw [hstack'] at htop
      simp at htop
    | sleepqNonempty =>
      have htop := step_checkSleepq hstack (hbefore hshutdown₁) hs
      rw [hstack'] at htop
      simp at htop
    | runWaited hpc heff =>
      rcases hpc with rfl | rfl <;> exact absurd (hbefore hshutdown₁) id
    | handleWake hpc heff => rcases hpc with rfl | rfl <;> trivial
    | _ => trivial
  | foreignUpgrade hs' =>
    have hstack : p.1.stack = f :: rest := by
      rw [hs'] at hstack'
      exact hstack'
    rcases ends_or_same hs hg hstack with hends | hg
    · exact hends
    · have hu : Undisturbed p.1 p'.1 := hs' ▸ foreignUpgrade_undisturbed p.1 _
      exact hu.ending hg he f rest hstack' hshutdown
  | foreignWrite ha hs' =>
    subst ha
    have hu : Undisturbed p.1 p'.1 := hs' ▸ foreignWrite_undisturbed p.1 _
    exact hu.ending hg he f rest hstack' hshutdown
  | foreignBlockOn ha hs' =>
    subst ha
    have hu : Undisturbed p.1 p'.1 := hs' ▸ foreignBlockOn_undisturbed p.1 _
    exact hu.ending hg he f rest hstack' hshutdown

/-! ## How a call of `run` ends -/

/-- No task is left in the queues of an executor. -/
lemma popReplaced_eq_none {x : ExecId} (h : s.popReplaced x = none) (q : QueueName) :
    s.queues.list (x, q) = [] := by
  simp only [popReplaced, Option.map_eq_none_iff, Option.or_eq_none_iff, Family.pop_eq_none_iff] at h
  cases q with
  | runqHigh => exact h.1
  | runqNormal => exact h.2.1
  | runqLow => exact h.2.2.1
  | sleepq => exact h.2.2.2

/-- How many tasks are queued on an executor. -/
def queued (s : Thread V) (x : ExecId) : ℕ :=
  (s.queues.list (x, .runqHigh)).length + (s.queues.list (x, .runqNormal)).length +
    (s.queues.list (x, .runqLow)).length + (s.queues.list (x, .sleepq)).length

/-- Taking a task out of a queue leaves fewer tasks. -/
lemma queued_release_lt {t : TaskId} {x : ExecId} {q : QueueName}
    (ht : s.queues.home t = some (x, q)) {s₁ : Thread V} (hs₁ : s₁.queues = s.queues.release t) :
    s₁.queued x < s.queued x := by
  have hle : ∀ r, (s₁.queues.list (x, r)).length ≤ (s.queues.list (x, r)).length := fun r => by
    rw [hs₁]
    exact List.length_erase_le
  have hlt : (s₁.queues.list (x, q)).length < (s.queues.list (x, q)).length := by
    have hmem := (s.queues.mem_list (x, q) t).mpr ht
    have hpos := List.length_pos_of_mem hmem
    rw [hs₁]
    refine (List.length_erase_of_mem hmem).trans_lt ?_
    omega
  have h₁ := hle .runqHigh
  have h₂ := hle .runqNormal
  have h₃ := hle .runqLow
  have h₄ := hle .sleepq
  unfold queued
  cases q <;> omega

/-- Library code goes on, a destructor returns, or the executor is replaced. -/
def GoesOn (s s' : Thread V) : Prop :=
  ∃ a, (a = .go (.error .other) ∨ a = .finish ∨ ∃ fd, a = .replace (some fd)) ∧ s.step a = some s'

/-- The call of `run` has returned `Ok` on `x`, which has no queued tasks. -/
structure Returned (rest : List Frame) (x : ExecId) (b : Bool) (s' : Thread V) : Prop where
  stack : s'.stack = rest
  log : s'.log.head? = some (.ran x b)
  queues : ∀ q, s'.queues.list (x, q) = []

/-- A call of `run` that drops the queues of a replaced executor returns. -/
lemma teardown_returns {x : ExecId} {rest : List Frame} (hstack : s.stack = .run (.teardown x) :: rest)
    (hp : s.panicked = none) :
    ∃ s', Relation.ReflTransGen GoesOn s s' ∧ Returned rest x (s.execs x).shutdown s' := by
  induction hn : s.queued x using Nat.strong_induction_on generalizing s with
  | _ n ih =>
    have hstep : ∀ s', s.goRun (.error .other) rest (.teardown x) = some s' → GoesOn s s' := by
      intro s' hs'
      refine ⟨.go (.error .other), .inl rfl, ?_⟩
      simp [step, act, go, hstack, hp, answers, hs']
    cases hpop : s.popReplaced x with
    | none =>
      let s' := ((s.setExec x { s.execs x with isOpen := false }).setStack rest).emit
        (.ran x (s.execs x).shutdown)
      have hs' : GoesOn s s' := hstep s' (by simp [goRun, hpop, s'])
      exact ⟨s', .single hs', rfl, rfl, fun q => popReplaced_eq_none hpop q⟩
    | some r =>
      obtain ⟨t, s₁⟩ := r
      obtain ⟨⟨q, hq⟩, hs₁⟩ := popReplaced_eq_some hpop
      have hlt : s₁.queued x < n := hn ▸ queued_release_lt hq (hs₁ ▸ rfl)
      have hstack₁ : s₁.stack = .run (.teardown x) :: rest := by rw [hs₁, ← hstack]
      have hp₁ : s₁.panicked = none := by rw [hs₁]; exact hp
      have hexec₁ : s₁.execs = s.execs := by rw [hs₁]
      by_cases halive : s₁.alive t = true
      · have hs' : GoesOn s s₁ := hstep s₁ (by simp [goRun, hpop, halive])
        obtain ⟨s', hrun, hret⟩ := ih _ hlt hstack₁ hp₁ rfl
        exact ⟨s', .head hs' hrun, hexec₁ ▸ hret⟩
      · -- The destructor of the task returns at once.
        have hs' : GoesOn s (s₁.setStack (.run (.dropping x) :: rest)) :=
          hstep _ (by simp [goRun, hpop, halive])
        have hs'' : GoesOn (s₁.setStack (.run (.dropping x) :: rest)) s₁ := by
          refine ⟨.finish, .inr (.inl rfl), ?_⟩
          unfold step
          rw [if_neg (by simp [Thread.setStack, hp₁])]
          simp only [act, finish, Thread.setStack]
          rw [← hstack₁]
        obtain ⟨s', hrun, hret⟩ := ih _ hlt hstack₁ hp₁ rfl
        exact ⟨s', .head hs' (.head hs'' hrun), hexec₁ ▸ hret⟩

/-- A call of `run` that has left its loop returns. -/
lemma replace_returns {rest : List Frame} {fd : RawFd} (hstack : s.stack = .run .replace :: rest)
    (hp : s.panicked = none) (hfd : s.pipeOf fd = none) :
    ∃ s', Relation.ReflTransGen GoesOn s s' ∧ Returned rest s.cur s.executor.shutdown s' := by
  let s₁ := ({ s with cur := s.cur + 1 }.setExec (s.cur + 1) (Executor.new fd)).setStack
    (.run (.teardown s.cur) :: rest)
  have hs₁ : GoesOn s s₁ := by
    refine ⟨.replace (some fd), .inr (.inr ⟨fd, rfl⟩), ?_⟩
    simp [step, act, hstack, hp, replaceExecutor, hfd, s₁]
  obtain ⟨s', hrun, hret⟩ := teardown_returns (s := s₁) rfl hp
  have hexec : (s₁.execs s.cur).shutdown = s.executor.shutdown := by
    simp [s₁, Thread.setStack, setExec, executor]
  exact ⟨s', .head hs₁ hrun, hexec ▸ hret⟩

/-- With the flag set, or nothing queued, a call of `run` returns that is not waiting for events. -/
lemma run_returns {rest : List Frame} {pc : RunPc} {fd : RawFd} (hstack : s.stack = .run pc :: rest)
    (hp : s.panicked = none) (hshutdown : s.executor.shutdown = true)
    (hpc : pc = .afterTask ∨ pc = .replace ∨ (pc = .select ∨ pc = .checkSleepq) ∧ s.Empty)
    (hfd : s.pipeOf fd = none) :
    ∃ s', Relation.ReflTransGen GoesOn s s' ∧ Returned rest s.cur true s' := by
  have hstep : ∀ s', s.goRun (.error .other) rest pc = some s' → GoesOn s s' := by
    intro s' hs'
    refine ⟨.go (.error .other), .inl rfl, ?_⟩
    simp [step, act, go, hstack, hp, answers, hs']
  have hreplace : GoesOn s (s.setStack (.run .replace :: rest)) →
      ∃ s', Relation.ReflTransGen GoesOn s s' ∧ Returned rest s.cur true s' := by
    intro hs
    obtain ⟨s', hrun, hret⟩ := replace_returns (s := s.setStack (.run .replace :: rest)) rfl hp hfd
    exact ⟨s', .head hs hrun, hshutdown ▸ hret⟩
  rcases hpc with rfl | rfl | ⟨rfl | rfl, hempty⟩
  · exact hreplace (hstep _ (by simp [goRun, hshutdown]))
  · obtain ⟨s', hrun, hret⟩ := replace_returns hstack hp hfd
    exact ⟨s', hrun, hshutdown ▸ hret⟩
  · have hcheck : GoesOn s (s.setStack (.run .checkSleepq :: rest)) :=
      hstep _ (by simp [goRun, highestPriorityRunnableTask_eq, hempty.front])
    have hgo : GoesOn (s.setStack (.run .checkSleepq :: rest))
        (s.setStack (.run .replace :: rest)) := by
      refine ⟨.go (.error .other), .inl rfl, ?_⟩
      have hnil : (s.setStack (.run .checkSleepq :: rest)).queues.list
          ((s.setStack (.run .checkSleepq :: rest)).cur, .sleepq) = [] := hempty.2.2.2
      unfold step
      rw [if_neg (by simp [Thread.setStack, hp])]
      simp only [act, answers, if_true, go, Thread.setStack, goRun, hempty.2.2.2, List.isEmpty_nil]
    obtain ⟨s', hrun, hret⟩ := replace_returns (s := s.setStack (.run .replace :: rest)) rfl hp hfd
    exact ⟨s', .head hcheck (.head hgo hrun), hshutdown ▸ hret⟩
  · exact hreplace (hstep _ (by simp [goRun, hempty.2.2.2]))

/-- The queues of an executor that was replaced only lose tasks. -/
lemma list_of_lt (h : Reachable step IsStart s) {a : Action V} (hs : s.step a = some s') {x : ExecId}
    (hx : x < s.cur) : s.cur ≤ s'.cur ∧ ∀ q, s'.queues.list (x, q) ⊆ s.queues.list (x, q) := by
  have hrun := (move_of_step hs).2.refines (wf_of_reachable h)
  have hkey : ∀ t q, s.cur ≤ s'.cur ∧
      (s'.queues.home t = some (x, q) → s.queues.home t = some (x, q)) := fun t q =>
    Sched.home_of_lt_of_reaches hrun hx
  refine ⟨(hkey 0 .sleepq).1, fun q t ht => ?_⟩
  exact (s.queues.mem_list _ t).mpr ((hkey t q).2 ((s'.queues.mem_list _ t).mp ht))

/-- The number of tasks queued on an executor that was replaced does not grow. -/
lemma queued_le (h : Reachable step IsStart s) {a : Action V} (hs : s.step a = some s') {x : ExecId}
    (hx : x < s.cur) : s'.queued x ≤ s.queued x := by
  have hle : ∀ q, (s'.queues.list (x, q)).length ≤ (s.queues.list (x, q)).length := fun q =>
    (List.subperm_of_subset (s'.queues.nodup _) ((list_of_lt h hs hx).2 q)).length_le
  have h₁ := hle .runqHigh
  have h₂ := hle .runqNormal
  have h₃ := hle .runqLow
  have h₄ := hle .sleepq
  unfold queued
  omega

/-- Dropping the queues of a replaced executor takes a task out of them, or ends the call of `run`. -/
lemma step_teardown {k : KernelAnswer} {x : ExecId} {rest : List Frame}
    (hstack : s.stack = .run (.teardown x) :: rest) (h : s.step (.go k) = some s') :
    (s'.queued x < s.queued x ∧ ∃ t, s'.log = .discarded t :: s.log) ∨
      Returned rest x (s.execs x).shutdown s' ∧ s'.queues = s.queues := by
  have hgo := (go_of_step h).2
  simp only [go, hstack, goRun] at hgo
  split at hgo
  · rename_i t s₁ hpop
    obtain ⟨⟨q, hq⟩, hs₁⟩ := popReplaced_eq_some hpop
    have hlt : s₁.queued x < s.queued x := queued_release_lt hq (hs₁ ▸ rfl)
    have hlog : s₁.log = .discarded t :: s.log := by rw [hs₁]
    obtain rfl := Option.some.inj hgo
    left
    split_ifs
    · exact ⟨hlt, t, hlog⟩
    · exact ⟨hlt, t, hlog⟩
  · rename_i hpop
    obtain rfl := Option.some.inj hgo
    exact .inr ⟨⟨rfl, rfl, fun q => popReplaced_eq_none hpop q⟩, rfl⟩

/-- No task is queued on an executor whose `run` has returned. -/
lemma queues_of_ran (h : Reachable step IsStart s) {x : ExecId} {b : Bool} (hx : .ran x b ∈ s.log) :
    x < s.cur ∧ ∀ q, s.queues.list (x, q) = [] := by
  refine h.invariant (P := fun s => ∀ x b, .ran x b ∈ s.log →
    x < s.cur ∧ ∀ q, s.queues.list (x, q) = []) ?_ ?_ x b hx
  · rintro s ⟨pipeWr, pipeCapacity, -, rfl⟩ x b hx
    simp [start] at hx
  · intro s a s' hr ih _ hs x b hx
    have hm := (move_of_step hs).2
    have hlater : x < s.cur ∧ (∀ q, s.queues.list (x, q) = []) →
        x < s'.cur ∧ ∀ q, s'.queues.list (x, q) = [] := by
      rintro ⟨hlt, hnil⟩
      obtain ⟨hle, hsub⟩ := list_of_lt hr hs hlt
      exact ⟨hlt.trans_le hle, fun q => List.subset_nil.mp (hnil q ▸ hsub q)⟩
    rcases hm.of_ran hx with hx | ⟨⟨k, rest, rfl, hstack⟩, -, hlog⟩
    · exact hlater (ih x b hx)
    · rcases step_teardown hstack hs with ⟨-, t, hlog'⟩ | ⟨hret, -⟩
      · simp [hlog] at hlog'
      · have hlt := (wf_of_reachable hr).replaced (.run (.teardown x)) (by simp [hstack]) x rfl
        exact ⟨hlt.trans_le (list_of_lt hr hs hlt).1, hret.queues⟩

variable {p p' : Observed V} {a : Action V}

/-- What the observer has noted holds in every run. -/
lemma noted_of_reachable {C : Observed V → Action V → Prop}
    (h : ReachableUnder (observe step observeShutdown) ObservedStart C p) : Noted p := by
  refine h.invariant (P := Noted) ?_ fun p a p' _ hn _ hs => noted_step hs hn
  rintro p ⟨-, hg⟩ hover
  simp [hg, ShutdownPoint.none] at hover

/-- With the flag set `run` ends, in every run that does not go on after a shutdown. -/
lemma ending_of_reachable (h : ReachableUnder (observe step observeShutdown) ObservedStart Stops p)
    (hp : p.1.panicked = none) : Ending p := by
  refine h.invariant (P := fun p => p.1.panicked = none → Ending p) ?_ ?_ hp
  · rintro p ⟨⟨pipeWr, pipeCapacity, -, hstart⟩, hg⟩ - f rest hstack
    obtain rfl : .user = f := by simpa [hstart, Thread.start] using congrArg List.head? hstack
    exact fun _ => trivial
  · intro p a p' hp ih hC hs hn
    have hn₀ := (move_of_step (observe_eq_some.mp hs).1).1
    exact ending_step hs (wf_of_reachable hp.of_observe) hn hC (ih hn₀)

/-- Once the poll or call that has set the flag is over, no poll of a task begins. -/
lemma not_polled_of_ended (hn : Noted p) (he : Ending p) (hover : p.2.ended = true) (hC : Stops p a)
    (hs : observe step observeShutdown p a = some p') (t : TaskId) : p'.1.log ≠ .polled t :: p.1.log := by
  intro hlog
  obtain ⟨hs, -⟩ := observe_eq_some.mp hs
  obtain ⟨k, f, f', rest, rfl, hstack, hf, hfront⟩ := (move_of_step hs).2.of_polled hlog
  rcases Frame.of_loop hf with ⟨rfl, -⟩ | ⟨b, rfl, -⟩
  · rcases he _ rest hstack (hn (.inl hover)) with hempty | ⟨hnot, -⟩
    · simp [hempty.front] at hfront
    · simp [hover] at hnot
  · simp [hC (by simp [blockOnSelects, hstack]) hover] at hfront

/-- A call of `run` that has control then gets to the replacement of the executor and returns. -/
lemma returns_of_ends (hover : p.2.ended = true) {pc : RunPc} {rest : List Frame}
    (hstack : p.1.stack = .run pc :: rest) (hends : Frame.Ends p (.run pc))
    (hflag : p.1.executor.shutdown = true) (hp : p.1.panicked = none) {fd : RawFd}
    (hfd : p.1.pipeOf fd = none) : (∃ x, pc = .teardown x ∨ pc = .dropping x) ∨
      ∃ s', Relation.ReflTransGen GoesOn p.1 s' ∧ Returned rest p.1.cur true s' := by
  have hreturns := fun hpc => run_returns hstack hp hflag hpc hfd
  cases pc with
  | select =>
    have hempty := hends.resolve_right fun h => by simp [hover] at h
    exact .inr (hreturns (.inr (.inr ⟨.inl rfl, hempty⟩)))
  | checkSleepq => exact .inr (hreturns (.inr (.inr ⟨.inr rfl, hends⟩)))
  | afterTask => exact .inr (hreturns (.inl rfl))
  | replace => exact .inr (hreturns (.inr (.inl rfl)))
  | waitZero | waitNone => exact absurd hends id
  | teardown x => exact .inl ⟨x, .inl rfl⟩
  | dropping x => exact .inl ⟨x, .inr rfl⟩

/-- In every run that does not go on after a shutdown: once the poll or call that has set the flag of the
executor is over, no poll of a task begins; with the flag set, `run` is never about to wait for events, and
once that poll or call is over it gets from wherever it is to the replacement of the executor and returns,
if the destructors do; dropping the queues takes a task out of them in every step, none is put in, and none
is left when `run` has returned. -/
theorem shutdown_ends_run (h : ReachableUnder (observe step observeShutdown) ObservedStart Stops p)
    (hp : p.1.panicked = none) :
    (p.2.ended = true → p.1.executor.shutdown = true ∧ ∀ a p' t, Stops p a →
      observe step observeShutdown p a = some p' → p'.1.log ≠ .polled t :: p.1.log) ∧
    (p.1.executor.shutdown = true → ∀ pc rest, p.1.stack = .run pc :: rest →
      pc ≠ .waitZero ∧ pc ≠ .waitNone ∧ (p.2.ended = true → ∀ fd, p.1.pipeOf fd = none →
        (∃ x, pc = .teardown x ∨ pc = .dropping x) ∨
          ∃ s', Relation.ReflTransGen GoesOn p.1 s' ∧ Returned rest p.1.cur true s')) ∧
    (∀ a s' x, x < p.1.cur → p.1.step a = some s' → s'.queued x ≤ p.1.queued x ∧
      ∀ k rest, a = .go k → p.1.stack = .run (.teardown x) :: rest →
        s'.queued x < p.1.queued x ∨ Returned rest x (p.1.execs x).shutdown s') ∧
    ∀ x b, .ran x b ∈ p.1.log → ∀ q, p.1.queues.list (x, q) = [] := by
  have hr := h.of_observe
  have hnoted := noted_of_reachable h
  have hending := ending_of_reachable h hp
  refine ⟨fun hover => ⟨hnoted (.inl hover), fun a p' t hC hs =>
      not_polled_of_ended hnoted hending hover hC hs t⟩,
    fun hshutdown pc rest hstack => ?_, fun a s' x hx hs => ⟨queued_le hr hs hx, ?_⟩,
    fun x b hx => (queues_of_ran hr hx).2⟩
  · have hends := hending _ rest hstack hshutdown
    refine ⟨?_, ?_, fun hover fd hfd => returns_of_ends hover hstack hends hshutdown hp hfd⟩
    · rintro rfl
      exact hends
    · rintro rfl
      exact hends
  · rintro k rest rfl hstack
    exact (step_teardown hstack hs).imp And.left And.left

/-- The first of two tasks shuts the executor down. -/
theorem shutdown_ends_run_of_task : ∃ p : Observed Unit,
    ReachableUnder (observe step observeShutdown) ObservedStart Stops p ∧
      p.1.stack = [.run .afterTask, .user] ∧ p.1.runnable 1 ∧ p.2.ended = true ∧
        ∃ s', Relation.ReflTransGen GoesOn p.1 s' ∧ Returned [.user] 0 true s' := by
  obtain ⟨p, hp, h⟩ := exists_observed (V := Unit) observeShutdown .none Stops
    [.spawn .normal, .spawn .normal, .run, .go (.ok []), .shutdown, .pending, .go (.ok [])]
    (fun p => decide (p.1.panicked = none ∧ p.1.executor.shutdown = true ∧ p.1.cur = 0 ∧
      p.1.pipeOf 4 = none ∧ p.1.stack = [.run .afterTask, .user] ∧
        p.1.queues.home 1 = some (p.1.cur, runq (p.1.tasks 1).priority) ∧ p.2.ended = true)) (by decide)
  obtain ⟨hn, hshutdown, hcur, hfd, hstack, hrun, hover⟩ := of_decide_eq_true h
  obtain ⟨-, hends, -, -⟩ := shutdown_ends_run hp hn
  obtain ⟨-, -, hret⟩ := hends hshutdown _ _ hstack
  obtain ⟨s', hgo, hret⟩ := (hret hover 4 hfd).resolve_left (by simp)
  exact ⟨p, hp, hstack, hrun, hover, s', hgo, hcur ▸ hret⟩

/-- A task is polled although the executor was shut down before `run` was entered; a task is polled by a
`block_on` after another task that the `block_on` polled has shut the executor down. -/
theorem polled_after_shutdown :
    (∃ p p' : Observed Unit, Reachable (observe step observeShutdown) ObservedStart p ∧
      p.1.stack = [.run .select, .user] ∧ p.2.ended = true ∧
        observe step observeShutdown p (.go (.ok [])) = some p' ∧
          p'.1.log = .polled 0 :: p.1.log) ∧
    ∃ p p' : Observed Unit, Reachable (observe step observeShutdown) ObservedStart p ∧
      p.1.stack = [.blockOn 0 .select, .runTask 0 .polling, .run .afterTask, .user] ∧
        p.2.ended = true ∧ observe step observeShutdown p (.go (.ok [])) = some p' ∧
          p'.1.log = .polled 2 :: p.1.log := by
  constructor
  · obtain ⟨p, hp, h⟩ := exists_observed (V := Unit) observeShutdown .none
      (fun _ _ => True) [.spawn .normal, .shutdown, .run]
      (fun p => (observe step observeShutdown p (.go (.ok []))).any fun p' : Observed Unit => decide (
        p.1.stack = [.run .select, .user] ∧ p.2.ended = true ∧ p'.1.log = .polled 0 :: p.1.log))
      (by decide)
    obtain ⟨p', hs, h⟩ := (Option.any_eq_true _ _).mp h
    obtain ⟨hstack, hover, hlog⟩ := of_decide_eq_true h
    exact ⟨p, p', hp, hstack, hover, hs, hlog⟩
  · obtain ⟨p, hp, h⟩ := exists_observed (V := Unit) observeShutdown .none
      (fun _ _ => True)
      [.spawn .normal, .spawn .normal, .spawn .normal, .run, .go (.ok []), .blockOn, .pending,
        .go (.ok []), .shutdown, .pending, .go (.ok []), .go (.ok []), .pending]
      (fun p => (observe step observeShutdown p (.go (.ok []))).any fun p' : Observed Unit => decide (
        p.1.stack = [.blockOn 0 .select, .runTask 0 .polling, .run .afterTask, .user] ∧
          p.2.ended = true ∧ p'.1.log = .polled 2 :: p.1.log)) (by decide)
    obtain ⟨p', hs, h⟩ := (Option.any_eq_true _ _).mp h
    obtain ⟨hstack, hover, hlog⟩ := of_decide_eq_true h
    exact ⟨p, p', hp, hstack, hover, hs, hlog⟩

end Thread

end Epox

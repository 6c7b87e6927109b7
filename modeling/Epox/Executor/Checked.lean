import Epox.Executor.Shutdown

/-!
# Checked tasks

`spawn_checked` wraps the future of a task: when it returns an error, the wrapper calls
`shutdown_executor_unchecked` before it returns that error.  `Checked.step` is the machine of a thread whose
tasks may be checked, each of its actions being carried out by one or two steps of the thread (`expand`).

A call of `run` returns with the shutdown flag set if and only if a checked task has failed or a shutdown was
called for; otherwise all tasks of its executor have returned (`run_shutdown_iff`).  The failure of a checked
task ends the run: no poll of a task begins until the executor is replaced (`failed_task_ends_run`).
-/

namespace Epox

/-- A request to shut an executor down. -/
structure Request where
  exec : ExecId
  /-- The checked task that has failed; `none` if `shutdown_executor_unchecked` was called otherwise. -/
  failed : Option TaskId
  deriving DecidableEq

/-- A thread whose tasks return a `Result`, with the observer of its shutdown. -/
structure Checked (V E : Type) where
  thread : Thread (Except E V)
  point : ShutdownPoint
  /-- The tasks that were spawned by `spawn_checked`. -/
  checked : TaskId → Bool
  /-- The requests so far, the latest first. -/
  requests : List Request

/-- What the environment of a thread decides about its next step. -/
inductive CheckedAction (V E : Type)
  | plain (a : Action (Except E V))
  /-- `Builder::spawn_checked`. -/
  | spawnChecked (priority : Priority)
  /-- The poll in progress polls a `Shutdown`, and returns the `Poll::Pending` that this returns. -/
  | awaitShutdown

namespace Checked

variable {V E : Type}

/-- The thread and the observer. -/
abbrev observed (c : Checked V E) : Thread.Observed (Except E V) := (c.thread, c.point)

/-- The checked task whose poll returns an error in this step. -/
def failing (c : Checked V E) : CheckedAction V E → Option TaskId
  | .plain (.ready (.error _)) =>
    match c.thread.stack with
    | .runTask t .polling :: _ => if c.checked t then some t else none
    | _ => none
  | _ => none

/-- The steps of the thread that carry out an action: `inspect_err` calls `shutdown_executor_unchecked`
before the wrapper returns the error, and so does `Shutdown::poll` before it returns. -/
def expand (c : Checked V E) (a : CheckedAction V E) : List (Action (Except E V)) :=
  match a with
  | .plain b => if (c.failing a).isSome then [.shutdown, b] else [b]
  | .spawnChecked priority => [.spawn priority]
  | .awaitShutdown => [.shutdown, .pending]

/-- The request that an action makes. -/
def request (c : Checked V E) (a : CheckedAction V E) : List Request :=
  match c.failing a, a with
  | some t, _ => [⟨c.thread.cur, some t⟩]
  | none, .plain .shutdown | none, .awaitShutdown => [⟨c.thread.cur, none⟩]
  | none, _ => []

/-- One step of a thread whose tasks may be checked. -/
def step (c : Checked V E) (a : CheckedAction V E) : Option (Checked V E) :=
  (exec (observe Thread.step Thread.observeShutdown) (fun _ _ => true) c.observed (c.expand a)).map
    fun p =>
      { thread := p.1
        point := p.2
        checked := match a with
          | .spawnChecked _ => Function.update c.checked c.thread.nTasks true
          | _ => c.checked
        requests := c.request a ++ c.requests }

/-- A thread on which no task has been spawned. -/
def start (s : Thread (Except E V)) : Checked V E := ⟨s, .none, fun _ => false, []⟩

/-- A thread at its start. -/
def IsStart (c : Checked V E) : Prop := ∃ s : Thread (Except E V), s.IsStart ∧ c = start s

/-- A condition on the steps of the thread that code of the caller, the library and other threads take by
themselves. -/
def Meets (D : Thread.Observed (Except E V) → Action (Except E V) → Prop) (c : Checked V E) :
    CheckedAction V E → Prop
  | .plain b => D c.observed b
  | _ => True

instance (D : Thread.Observed (Except E V) → Action (Except E V) → Prop) [∀ p b, Decidable (D p b)]
    (c : Checked V E) (a : CheckedAction V E) : Decidable (Meets D c a) := by
  unfold Meets
  split <;> infer_instance

/-- Checked tasks with a property that are reached by executing a sequence of actions. -/
lemma exists_checked (C : Checked V E → CheckedAction V E → Prop) [∀ c a, Decidable (C c a)]
    (actions : List (CheckedAction V E)) (P : Checked V E → Bool)
    (hP : (exec step (fun c a => decide (C c a)) (start (Thread.start (Except E V) 3 16)) actions).any P =
      true) :
    ∃ c : Checked V E, ReachableUnder step IsStart C c ∧ P c = true :=
  ReachableUnder.exists_run step C ⟨_, ⟨3, 16, by decide, rfl⟩, rfl⟩ actions hP

/-! ## What a step does -/

/-- What a step does. -/
inductive Move (c : Checked V E) (a : CheckedAction V E) (c' : Checked V E) : Prop
  | plain (b : Action (Except E V))
      (ha : a = .plain b ∨ ∃ priority, a = .spawnChecked priority ∧ b = .spawn priority)
      (hb : b ≠ .shutdown) (hfailing : c.failing a = none)
      (hs : observe Thread.step Thread.observeShutdown c.observed b = some c'.observed)
      (hrequests : c'.requests = c.requests)
  | call (ha : a = .plain .shutdown) (hfailing : c.failing a = none)
      (hs : observe Thread.step Thread.observeShutdown c.observed .shutdown = some c'.observed)
      (hrequests : c'.requests = ⟨c.thread.cur, none⟩ :: c.requests)
  | await (ha : a = .awaitShutdown) (p : Thread.Observed (Except E V))
      (hshutdown : observe Thread.step Thread.observeShutdown c.observed .shutdown = some p)
      (hs : observe Thread.step Thread.observeShutdown p .pending = some c'.observed)
      (hrequests : c'.requests = ⟨c.thread.cur, none⟩ :: c.requests)
  | fail (t : TaskId) (e : E) (rest : List Frame) (hfailing : c.failing a = some t)
      (hstack : c.thread.stack = .runTask t .polling :: rest) (p : Thread.Observed (Except E V))
      (hshutdown : observe Thread.step Thread.observeShutdown c.observed .shutdown = some p)
      (hs : observe Thread.step Thread.observeShutdown p (.ready (.error e)) = some c'.observed)
      (hrequests : c'.requests = ⟨c.thread.cur, some t⟩ :: c.requests)

variable {c c' : Checked V E} {a : CheckedAction V E}

/-- A checked task that fails returns an error from its poll. -/
lemma of_failing {t : TaskId} (h : c.failing a = some t) :
    ∃ e rest, a = .plain (.ready (.error e)) ∧ c.thread.stack = .runTask t .polling :: rest := by
  unfold failing at h
  split at h
  · split at h
    · rename_i e _ u rest hstack
      split_ifs at h
      obtain rfl := Option.some.inj h
      exact ⟨e, rest, rfl, hstack⟩
    · simp at h
  · simp at h

/-- Every step is a move. -/
lemma move_of_step (h : c.step a = some c') : Move c a c' := by
  obtain ⟨p, hexec, rfl⟩ := Option.map_eq_some_iff.mp h
  cases hfailing : c.failing a with
  | some t =>
    obtain ⟨e, rest, rfl, hstack⟩ := of_failing hfailing
    simp only [expand, hfailing, Option.isSome_some, if_true] at hexec
    obtain ⟨p₁, hshutdown, hs⟩ := exec_pair.mp hexec
    exact .fail t e rest hfailing hstack p₁ hshutdown hs (by simp [request, hfailing])
  | none =>
    cases a with
    | plain b =>
      simp only [expand, hfailing, Option.isSome_none, Bool.false_eq_true, if_false, exec_singleton]
        at hexec
      by_cases hb : b = .shutdown
      · subst hb
        exact .call rfl hfailing hexec (by simp [request, hfailing])
      · refine .plain b (.inl rfl) hb hfailing hexec ?_
        cases b with
        | shutdown => exact absurd rfl hb
        | _ => simp [request, hfailing]
    | spawnChecked priority =>
      rw [expand, exec_singleton] at hexec
      exact .plain _ (.inr ⟨priority, rfl, rfl⟩) (by simp) hfailing hexec (by simp [request, hfailing])
    | awaitShutdown =>
      obtain ⟨p₁, hshutdown, hs⟩ := exec_pair.mp hexec
      exact .await rfl p₁ hshutdown hs (by simp [request, hfailing])

/-- The steps of the thread that an action implies. -/
def Implied (b : Action (Except E V)) : Prop :=
  b = .shutdown ∨ b = .pending ∨ (∃ v, b = .ready v) ∨ ∃ priority, b = .spawn priority

/-- What a thread with checked tasks reaches, the thread itself reaches. -/
lemma observed_of_reachable {D : Thread.Observed (Except E V) → Action (Except E V) → Prop}
    {start : Checked V E → Prop} (hD : ∀ p b, Implied b → D p b)
    (h : ReachableUnder step start (Meets D) c) :
    ReachableUnder (observe Thread.step Thread.observeShutdown)
      (fun p => ∃ c₀, start c₀ ∧ p = c₀.observed) D c.observed := by
  induction h with
  | @init c h => exact .init ⟨c, h, rfl⟩
  | @next c c' a _ hC hs ih =>
    have hcall : ∀ {p : Thread.Observed (Except E V)},
        observe Thread.step Thread.observeShutdown c.observed .shutdown = some p →
          ReachableUnder (observe Thread.step Thread.observeShutdown)
            (fun p => ∃ c₀, start c₀ ∧ p = c₀.observed) D p := fun hs =>
      .next ih (hD _ _ (.inl rfl)) hs
    cases move_of_step hs with
    | plain b ha hb hfailing hs hrequests =>
      refine .next ih ?_ hs
      rcases ha with rfl | ⟨priority, rfl, rfl⟩
      · exact hC
      · exact hD _ _ (.inr (.inr (.inr ⟨priority, rfl⟩)))
    | call ha hfailing hs hrequests => exact hcall hs
    | await ha p hshutdown hs hrequests => exact .next (hcall hshutdown) (hD _ _ (.inr (.inl rfl))) hs
    | fail t e rest hfailing hstack p hshutdown hs hrequests =>
      exact .next (hcall hshutdown) (hD _ _ (.inr (.inr (.inl ⟨.error e, rfl⟩)))) hs

end Checked

/-! ## The requests are what the flag stands for -/

namespace Thread

variable {V : Type} {s s' : Thread V} {R : List Request}

/-- The flag of an executor is set if it was requested, and `run` returns what the flag was. -/
structure Recorded (s : Thread V) (R : List Request) : Prop where
  known : ∀ r ∈ R, r.exec ≤ s.cur
  flag : ∀ x ≤ s.cur, (s.execs x).shutdown = true ↔ ∃ r ∈ R, r.exec = x
  ran : ∀ x b, .ran x b ∈ s.log → x < s.cur ∧ b = (s.execs x).shutdown

/-- The flag of the executor that takes the place of another one is not set. -/
lemma shutdown_of_replace {fd : RawFd} (h : s.step (.replace (some fd)) = some s') :
    s'.cur = s.cur + 1 ∧ s'.executor.shutdown = false ∧
      ∀ x ≤ s.cur, (s'.execs x).shutdown = (s.execs x).shutdown := by
  cases (acts_of_step h).2 with
  | @replace fd rest hstack =>
    refine ⟨rfl, by simp [executor, setExec, Thread.setStack, Executor.new], fun x hx => ?_⟩
    have hne : x ≠ s.cur + 1 := (Nat.lt_succ_of_le hx).ne
    simp [setExec, Thread.setStack, hne]

/-- A step that makes no request. -/
lemma Recorded.step (h : s.Recorded R) (hwf : s.Wf) {a : Action V} (hs : s.step a = some s')
    (ha : a ≠ .shutdown) : s'.Recorded R := by
  have hm := (move_of_step hs).2
  have hl := hm.later
  have hran : ∀ x b, .ran x b ∈ s'.log → x < s.cur ∧ b = (s.execs x).shutdown := by
    intro x b hx
    rcases hm.of_ran hx with hx | ⟨⟨k, rest, -, hstack⟩, hb, -⟩
    · exact h.ran x b hx
    · exact ⟨hwf.replaced (.run (.teardown x)) (by simp [hstack]) x rfl, hb⟩
  refine ⟨fun r hr => (h.known r hr).trans hl.cur, fun x hx => ?_, fun x b hx => ?_⟩
  · by_cases hreplace : ∃ fd, a = .replace (some fd)
    · obtain ⟨fd, rfl⟩ := hreplace
      obtain ⟨hcur, hnew, hold⟩ := shutdown_of_replace hs
      rcases (hcur ▸ hx).lt_or_eq with hlt | rfl
      · rw [hold x (Nat.lt_succ_iff.mp hlt)]
        exact h.flag x (Nat.lt_succ_iff.mp hlt)
      · rw [executor, hcur] at hnew
        simp only [hnew, Bool.false_eq_true, false_iff, not_exists, not_and]
        intro r hr heq
        exact (h.known r hr).not_gt (heq ▸ Nat.lt_succ_self s.cur)
    · have hcur := cur_of_step hs fun fd hfd => hreplace ⟨fd, hfd⟩
      have hflag := hm.shutdown_eq.resolve_right fun h => h.elim (fun h => ha h.1) hreplace
      rw [← h.flag x (hcur ▸ hx)]
      rcases (hcur ▸ hx).lt_or_eq with hlt | rfl
      · rw [hl.shutdown x hlt]
      · rw [executor, executor, hcur] at hflag
        rw [hflag]
  · obtain ⟨hlt, hb⟩ := hran x b hx
    exact ⟨hlt.trans_le hl.cur, hb.trans (hl.shutdown x hlt).symm⟩

/-- A request to shut the current executor down. -/
lemma Recorded.shutdown (h : s.Recorded R) (hs : s.step .shutdown = some s') (failed : Option TaskId) :
    s'.Recorded (⟨s.cur, failed⟩ :: R) := by
  obtain ⟨-, rfl⟩ := call_eq_some.mp (act_of_step hs)
  refine ⟨fun r hr => ?_, fun x hx => ?_, fun x b hx => ?_⟩
  · rcases List.mem_cons.mp hr with rfl | hr
    · exact le_rfl
    · exact h.known r hr
  · by_cases hcur : x = s.cur
    · subst hcur
      simp [setExec]
    · rw [List.exists_mem_cons_iff]
      simpa [setExec, hcur, Ne.symm hcur] using h.flag x hx
  · obtain ⟨hlt, hb⟩ := h.ran x b hx
    exact ⟨hlt, by simp [setExec, hlt.ne, hb]⟩

/-- What the end of a call of `run` rests on, in a run in which `run` is not re-entered. -/
lemma runEnds_of_reachable (h : ReachableUnder step IsStart NotReentrant s) (hp : s.panicked = none) :
    s.RunEnds := by
  refine h.invariant (P := fun s => s.panicked = none → s.RunEnds) ?_ ?_ hp
  · rintro s ⟨pipeWr, pipeCapacity, -, rfl⟩ -
    refine ⟨⟨by simp [Frame.isRun], trivial⟩, leaving_of_head (by simp [start]), ?_, ?_⟩ <;>
      simp [start, Frame.replaced]
  · intro s a s' hs ih hC hstep hp
    obtain ⟨hn, hm⟩ := move_of_step hstep
    exact hm.runEnds hs.reachable hn hp hC (ih hn)

end Thread

namespace Checked

variable {V E : Type} {c c' : Checked V E} {a : CheckedAction V E}

/-- The thread of a run with checked tasks, whose own steps meet a condition. -/
lemma reachable_observed {D : Thread.Observed (Except E V) → Action (Except E V) → Prop}
    (hD : ∀ p b, Implied b → D p b) (h : ReachableUnder step IsStart (Meets D) c) :
    ReachableUnder (observe Thread.step Thread.observeShutdown) Thread.ObservedStart D c.observed := by
  refine (observed_of_reachable hD h).mono_start ?_
  rintro p ⟨c₀, ⟨s, hs, rfl⟩, rfl⟩
  exact ⟨hs, rfl⟩

/-- The thread of a run with checked tasks. -/
lemma reachable_thread {C : Checked V E → CheckedAction V E → Prop} (h : ReachableUnder step IsStart C c) :
    Reachable Thread.step Thread.IsStart c.thread :=
  (reachable_observed (D := fun _ _ => True) (fun _ _ _ => trivial)
    (h.mono fun _ a _ => by cases a <;> trivial)).of_observe

/-- Every step records the request that it makes. -/
lemma recorded_step (hr : Reachable Thread.step Thread.IsStart c.thread)
    (h : c.thread.Recorded c.requests) (hs : c.step a = some c') : c'.thread.Recorded c'.requests := by
  -- The second of the two steps that carry out an action makes no request.
  have hreturn : ∀ {p p' : Thread.Observed (Except E V)} (failed : Option TaskId) {b : Action (Except E V)},
      observe Thread.step Thread.observeShutdown c.observed .shutdown = some p →
        observe Thread.step Thread.observeShutdown p b = some p' → b ≠ .shutdown →
          p'.1.Recorded (⟨c.thread.cur, failed⟩ :: c.requests) := fun failed _ hshutdown hs hb => by
    have hshutdown := (observe_eq_some.mp hshutdown).1
    exact (h.shutdown hshutdown failed).step (Thread.wf_of_reachable (.next hr trivial hshutdown))
      (observe_eq_some.mp hs).1 hb
  cases move_of_step hs with
  | plain b ha hb hfailing hs hrequests =>
    rw [hrequests]
    exact h.step (Thread.wf_of_reachable hr) (observe_eq_some.mp hs).1 hb
  | call ha hfailing hs hrequests =>
    rw [hrequests]
    exact h.shutdown (observe_eq_some.mp hs).1 none
  | await ha p hshutdown hs hrequests =>
    rw [hrequests]
    exact hreturn none hshutdown hs (by simp)
  | fail t e rest hfailing hstack p hshutdown hs hrequests =>
    rw [hrequests]
    exact hreturn (some t) hshutdown hs (by simp)

/-- The requests are recorded in every run. -/
lemma recorded_of_reachable {C : Checked V E → CheckedAction V E → Prop}
    (h : ReachableUnder step IsStart C c) : c.thread.Recorded c.requests := by
  refine h.invariant (P := fun c => c.thread.Recorded c.requests) ?_ fun c a c' hr ih _ hs =>
    recorded_step (reachable_thread hr) ih hs
  rintro c ⟨s, ⟨pipeWr, pipeCapacity, -, rfl⟩, rfl⟩
  exact ⟨by simp [start], by simp [start, Thread.start, Executor.new], by simp [start, Thread.start]⟩

/-- `run` is not called from inside the poll of a task. -/
def NotReentrant : Checked V E → CheckedAction V E → Prop := Meets fun p b => p.1.NotReentrant b

instance (c : Checked V E) (a : CheckedAction V E) : Decidable (NotReentrant c a) :=
  inferInstanceAs (Decidable (Meets (fun p b => p.1.NotReentrant b) c a))

/-- In every panic-free run in which `run` is not re-entered: a call of `run` has returned on an executor with
the shutdown flag set if and only if, while the executor was the current one, a checked task returned an error
or `shutdown_executor_unchecked` was called; otherwise every task of the executor that was not aborted has
returned. -/
theorem run_shutdown_iff (h : ReachableUnder step IsStart NotReentrant c)
    (hp : c.thread.panicked = none) {x : ExecId} {b : Bool} (hx : .ran x b ∈ c.thread.log) :
    (b = true ↔ ∃ r ∈ c.requests, r.exec = x) ∧ (b = false → ∀ t < c.thread.nTasks,
      (c.thread.tasks t).exec = x → .aborted t ∈ c.thread.log ∨ .ready t ∈ c.thread.log) := by
  have hrecorded := recorded_of_reachable h
  obtain ⟨hlt, hb⟩ := hrecorded.ran x b hx
  refine ⟨by rw [hb]; exact hrecorded.flag x hlt.le, fun hfalse t ht hexec => ?_⟩
  subst hfalse
  have hunder : ReachableUnder Thread.step Thread.IsStart Thread.NotReentrant c.thread := by
    refine (reachable_observed ?_ h).under_of_observe fun _ _ => id
    rintro p b (rfl | rfl | ⟨v, rfl⟩ | ⟨priority, rfl⟩) <;> trivial
  have hdone := ((Thread.runEnds_of_reachable hunder hp).ran x hx).2
  exact (hdone t ht hexec).imp_right fun hc =>
    (Thread.abs_reached hunder.reachable).ready_of_completed (.inl hc)

/-- A checked task returns an error, and the next call of `run` ends with a task that is not checked and
returns one, too. -/
theorem run_shutdown_iff_of_task : ∃ c : Checked Unit Unit, ReachableUnder step IsStart NotReentrant c ∧
    .ran 0 true ∈ c.thread.log ∧ (∃ r ∈ c.requests, r.exec = 0) ∧
      .ran 1 false ∈ c.thread.log ∧ (.aborted 1 ∈ c.thread.log ∨ .ready 1 ∈ c.thread.log) := by
  obtain ⟨c, hc, h⟩ := exists_checked (V := Unit) (E := Unit) NotReentrant
    [.spawnChecked .normal, .plain .run, .plain (.go (.ok [])), .plain (.ready (.error ())),
      .plain (.go (.ok [])), .plain (.go (.ok [])), .plain (.go (.ok [])), .plain (.replace (some 4)),
      .plain (.go (.ok [])), .plain (.spawn .normal), .plain .run, .plain (.go (.ok [])),
      .plain (.ready (.error ())), .plain (.go (.ok [])), .plain (.go (.ok [])), .plain (.go (.ok [])),
      .plain (.go (.ok [])), .plain (.go (.ok [])), .plain (.go (.ok [])), .plain (.replace (some 5)),
      .plain (.go (.ok []))]
    (fun c => decide (c.thread.panicked = none ∧ .ran 0 true ∈ c.thread.log ∧
      .ran 1 false ∈ c.thread.log ∧ c.thread.nTasks = 2 ∧ (c.thread.tasks 1).exec = 1)) (by decide)
  obtain ⟨hp, hfailed, hran, hn, hexec⟩ := of_decide_eq_true h
  exact ⟨c, hc, hfailed, (run_shutdown_iff hc hp hfailed).1.mp rfl, hran,
    (run_shutdown_iff hc hp hran).2 rfl 1 (by simp [hn]) hexec⟩

end Checked

/-! ## After the end of the poll that has set the flag -/

/-- The tasks that were polled, the one polled last first. -/
def polledTasks (h : List Event) : List TaskId :=
  h.filterMap fun
    | .polled t => some t
    | _ => none

namespace Thread

variable {V : Type} {s s' : Thread V} {p p' : Observed V} {a : Action V}

/-- Wakes are no polls. -/
lemma Effects.polledTasks_eq (h : Effects s s') : polledTasks s'.log = polledTasks s.log := by
  obtain ⟨l, hl, hwake⟩ := h.untouched.log
  have hnil : polledTasks l = [] := List.filterMap_eq_nil_iff.mpr fun e he => by
    have hwake := hwake e he
    cases e <;> first | rfl | simp [Event.isWake] at hwake
  rw [hl, polledTasks, List.filterMap_append]
  exact (congrArg (· ++ _) hnil).trans (List.nil_append _)

/-- A step begins at most one poll. -/
lemma Move.polledTasks_eq (hm : Move s a s') :
    polledTasks s'.log = polledTasks s.log ∨ ∃ t, s'.log = .polled t :: s.log := by
  cases hm with
  | select => exact .inr ⟨_, rfl⟩
  | stay hu heff | crash heff hp => exact .inl heff.polledTasks_eq
  | jump hstack hj => exact .inl hj.effects.polledTasks_eq
  | repoll hstack hpc heff => exact .inl heff.polledTasks_eq
  | spawn hu =>
    rw [Thread.spawn, enqueue_of_not_completed (by simp)]
    exact .inl rfl
  | @fdNew raw events fcntl ctl hu =>
    left
    rcases fdNew_cases s raw events fcntl ctl with hs | ⟨fd, interest, -, -, hs | hs⟩ <;> rw [hs] <;> rfl
  | foreignWrite => exact .inl (foreignWrite_effects s _).polledTasks_eq
  | foreignBlockOn => exact .inl (foreignBlockOn_effects s _).polledTasks_eq
  | _ => exact .inl rfl

/-- The poll that has set the flag stays over until the executor is replaced. -/
lemma ended_of_step (hn : Noted p) (hover : p.2.ended = true)
    (hs : observe step observeShutdown p a = some p') (hcur : p'.1.cur = p.1.cur) : p'.2.ended = true := by
  obtain ⟨hs, hg⟩ := observe_eq_some.mp hs
  rw [hg]
  cases a with
  | shutdown => simp [observeShutdown, hn (.inl hover), hover]
  | pending | ready v =>
    simp only [observeShutdown]
    split_ifs
    · rfl
    · exact hover
  | replace fd =>
    cases fd with
    | none => exact hover
    | some fd => exact absurd ((shutdown_of_replace hs).1.symm.trans hcur) (Nat.succ_ne_self _)
  | _ => exact hover

/-- A poll that sets the flag just before it returns, if it is not set yet, is over when it has returned. -/
lemma ended_of_failure {p₁ : Observed V} {t : TaskId} {rest : List Frame} {v : V}
    (hover : p.1.executor.shutdown = true → p.2.ended = true)
    (hstack : p.1.stack = .runTask t .polling :: rest)
    (hs : observe step observeShutdown p .shutdown = some p₁)
    (hs' : observe step observeShutdown p₁ (.ready v) = some p') : p'.2.ended = true := by
  obtain ⟨hs, hg⟩ := observe_eq_some.mp hs
  obtain ⟨-, hg'⟩ := observe_eq_some.mp hs'
  obtain ⟨-, hp₁⟩ := call_eq_some.mp (act_of_step hs)
  rw [hg', hg, hp₁]
  cases hflag : p.1.executor.shutdown with
  | true =>
    simp only [observeShutdown, hflag, if_true]
    split_ifs
    · rfl
    · exact hover hflag
  | false => simp [observeShutdown, hflag, hstack, innermostPoll, Frame.isPolling, setExec]

/-- The executor has been told to shut down, and the poll or call that has done it is over; since then the
tasks `l` are those that were polled, until the executor is replaced. -/
structure Ended (x : ExecId) (l : List TaskId) (p : Observed V) : Prop where
  le : x ≤ p.1.cur
  flag : (p.1.execs x).shutdown = true
  ran : ∀ b, .ran x b ∈ p.1.log → b = true
  polls : p.1.cur = x → p.2.ended = true ∧ polledTasks p.1.log = l

/-- The flag of an executor is not taken back. -/
lemma shutdown_of_step (hs : s.step a = some s') {x : ExecId} (hx : x ≤ s.cur)
    (hflag : (s.execs x).shutdown = true) : (s'.execs x).shutdown = true := by
  have hm := (move_of_step hs).2
  rcases hx.lt_or_eq with hlt | rfl
  · rw [hm.later.shutdown x hlt]
    exact hflag
  · by_cases hreplace : ∃ fd, a = .replace (some fd)
    · obtain ⟨fd, rfl⟩ := hreplace
      rw [(shutdown_of_replace hs).2.2 _ le_rfl]
      exact hflag
    · have hcur := cur_of_step hs fun fd hfd => hreplace ⟨fd, hfd⟩
      rw [← hcur]
      rcases hm.shutdown_eq with heq | ⟨-, hset⟩ | hfd
      · exact heq.trans hflag
      · exact hset
      · exact absurd hfd hreplace

/-- Every step that does not go on after a shutdown leaves the executor ended. -/
lemma Ended.step {x : ExecId} {l : List TaskId} (h : Ended x l p)
    (hr : ReachableUnder (observe Thread.step observeShutdown) ObservedStart Stops p) (hC : Stops p a)
    (hs : observe Thread.step observeShutdown p a = some p') : Ended x l p' := by
  have hstep := (observe_eq_some.mp hs).1
  obtain ⟨hp, hm⟩ := move_of_step hstep
  have hn := noted_of_reachable hr
  have he := ending_of_reachable hr hp
  have hl := hm.later
  refine ⟨h.le.trans hl.cur, shutdown_of_step hstep h.le h.flag, fun b hb => ?_, fun hcur => ?_⟩
  · rcases hm.of_ran hb with hb | ⟨-, rfl, -⟩
    · exact h.ran b hb
    · exact h.flag
  · have hcur₀ : p.1.cur = x := le_antisymm (hcur ▸ hl.cur) h.le
    obtain ⟨hover, hpolls⟩ := h.polls hcur₀
    refine ⟨ended_of_step hn hover hs (hcur.trans hcur₀.symm), ?_⟩
    rcases hm.polledTasks_eq with heq | ⟨t, ht⟩
    · exact heq.trans hpolls
    · exact absurd ht (not_polled_of_ended hn he hover hC hs t)

end Thread

namespace Checked

variable {V E : Type} {c c' c'' : Checked V E} {a : CheckedAction V E}

/-- If only checked tasks have told the executor to shut down, the poll that has set the flag is over. -/
lemma over_of_reachable {C : Checked V E → CheckedAction V E → Prop} (h : ReachableUnder step IsStart C c)
    (honly : ∀ r ∈ c.requests, r.exec = c.thread.cur → r.failed ≠ none)
    (hflag : c.thread.executor.shutdown = true) : c.point.ended = true := by
  refine h.invariant (P := fun c => (∀ r ∈ c.requests, r.exec = c.thread.cur → r.failed ≠ none) →
    c.thread.executor.shutdown = true → c.point.ended = true) ?_ ?_ honly hflag
  · rintro c ⟨s, ⟨pipeWr, pipeCapacity, -, rfl⟩, rfl⟩ - hflag
    simp [start, Thread.start, Thread.executor, Executor.new] at hflag
  · intro c a c' hr ih _ hs honly hflag
    have hn : Thread.Noted c.observed := Thread.noted_of_reachable (reachable_observed (D := fun _ _ => True)
      (fun _ _ _ => trivial) (hr.mono fun _ a _ => by cases a <;> trivial))
    have hcall : ∀ {p : Thread.Observed (Except E V)},
        observe Thread.step Thread.observeShutdown c.observed .shutdown = some p →
          p.1.cur = c.thread.cur := fun hs => Thread.cur_of_step (observe_eq_some.mp hs).1 (by simp)
    cases move_of_step hs with
    | plain b ha hb hfailing hs hrequests =>
      have hstep := (observe_eq_some.mp hs).1
      by_cases hreplace : ∃ fd, b = .replace (some fd)
      · obtain ⟨fd, rfl⟩ := hreplace
        simp [(Thread.shutdown_of_replace hstep).2.1] at hflag
      · have hcur := Thread.cur_of_step hstep fun fd hfd => hreplace ⟨fd, hfd⟩
        have hm := (Thread.move_of_step hstep).2
        have heq := hm.shutdown_eq.resolve_right fun h => h.elim (fun h => hb h.1) hreplace
        rw [hrequests, hcur] at honly
        exact Thread.ended_of_step hn (ih honly (heq ▸ hflag)) hs hcur
    | call ha hfailing hs hrequests =>
      exact absurd rfl (honly ⟨c.thread.cur, none⟩ (by simp [hrequests]) (hcall hs).symm)
    | await ha p hshutdown hs hrequests =>
      have hcur := Thread.cur_of_step (observe_eq_some.mp hs).1 (by simp)
      exact absurd rfl (honly ⟨c.thread.cur, none⟩ (by simp [hrequests])
        (hcur.trans (hcall hshutdown)).symm)
    | fail t e rest hfailing hstack p hshutdown hs hrequests =>
      have hcur := (Thread.cur_of_step (observe_eq_some.mp hs).1 (by simp)).trans (hcall hshutdown)
      refine Thread.ended_of_failure (ih fun r hr hexec => ?_) hstack hshutdown hs
      exact honly r (hrequests ▸ List.mem_cons_of_mem _ hr) (hexec.trans hcur.symm)

/-- The steps do not go on after a shutdown. -/
def Stops : Checked V E → CheckedAction V E → Prop := Meets Thread.Stops

instance (c : Checked V E) (a : CheckedAction V E) : Decidable (Stops c a) :=
  inferInstanceAs (Decidable (Meets Thread.Stops c a))

/-- What an action implies does not go on after a shutdown. -/
lemma stops_of_implied (p : Thread.Observed (Except E V)) (b : Action (Except E V)) (h : Implied b) :
    Thread.Stops p b := by
  rcases h with rfl | rfl | ⟨v, rfl⟩ | ⟨priority, rfl⟩ <;> trivial

/-- The step in which a checked task fails. -/
lemma step_failing {t : TaskId} (hfailing : c.failing a = some t) (hs : c.step a = some c') :
    ∃ e rest p, a = .plain (.ready (.error e)) ∧ c.thread.stack = .runTask t .polling :: rest ∧
      observe Thread.step Thread.observeShutdown c.observed .shutdown = some p ∧
        observe Thread.step Thread.observeShutdown p (.ready (.error e)) = some c'.observed := by
  obtain ⟨e, rest, rfl, hstack⟩ := of_failing hfailing
  obtain ⟨p, hexec, rfl⟩ := Option.map_eq_some_iff.mp hs
  simp only [expand, hfailing, Option.isSome_some, if_true] at hexec
  obtain ⟨p₁, hshutdown, hs⟩ := exec_pair.mp hexec
  exact ⟨e, rest, p₁, rfl, hstack, hshutdown, hs⟩

/-- When a checked task fails, the executor has been told to shut down and the output of the task is the
error. -/
lemma ended_of_failing {C : Checked V E → CheckedAction V E → Prop} (h : ReachableUnder step IsStart C c)
    {t : TaskId} (hfailing : c.failing a = some t)
    (honly : ∀ r ∈ c.requests, r.exec = c.thread.cur → r.failed ≠ none) (hC : C c a)
    (hs : c.step a = some c') :
    (∃ e, a = .plain (.ready (.error e)) ∧ (c'.thread.tasks t).output = some (.error e)) ∧
      Thread.Ended c.thread.cur (polledTasks c.thread.log) c'.observed := by
  obtain ⟨e, rest, p, rfl, hstack, hshutdown, hready⟩ := step_failing hfailing hs
  have hover := Thread.ended_of_failure (over_of_reachable h honly) hstack hshutdown hready
  obtain ⟨-, hp⟩ := Thread.call_eq_some.mp (Thread.act_of_step (observe_eq_some.mp hshutdown).1)
  have hact := Thread.act_of_step (observe_eq_some.mp hready).1
  rw [hp] at hact
  simp only [Thread.act, Thread.ready, Thread.setExec, hstack, Option.some.injEq] at hact
  have hcur : c'.thread.cur = c.thread.cur := by rw [← hact]; rfl
  refine ⟨⟨e, rfl, by simp [← hact, Thread.setTask, Thread.setStack, Thread.emit]⟩, hcur.ge, ?_, ?_, ?_⟩
  · simp [← hact, Thread.setTask, Thread.setStack, Thread.emit]
  · intro b hb
    have hlt := ((recorded_of_reachable (.next h hC hs)).ran _ b hb).1
    exact absurd hcur hlt.ne'
  · have hpolls : polledTasks c'.thread.log = polledTasks c.thread.log := by rw [← hact]; rfl
    exact fun _ => ⟨hover, hpolls⟩

/-- A checked task has failed on an executor that nothing but checked tasks has told to shut down: its
output is the error, and in every run from there on that does not go on after a shutdown no poll of a task
begins until the executor is replaced, a call of `run` that has control and is not dropping an executor gets
to the replacement and returns, if the destructors do, and it returns with the shutdown flag set. -/
theorem failed_task_ends_run (h : ReachableUnder step IsStart Stops c) {t : TaskId}
    (hfailing : c.failing a = some t)
    (honly : ∀ r ∈ c.requests, r.exec = c.thread.cur → r.failed ≠ none) (hs : c.step a = some c')
    (h' : ReachableUnder step (· = c') Stops c'') (hp : c''.thread.panicked = none) :
    (∃ e, a = .plain (.ready (.error e)) ∧ (c'.thread.tasks t).output = some (.error e)) ∧
    (c''.thread.cur = c.thread.cur →
      polledTasks c''.thread.log = polledTasks c.thread.log ∧
      ∀ pc rest fd, c''.thread.stack = .run pc :: rest → c''.thread.pipeOf fd = none →
        (∃ x, pc = .teardown x ∨ pc = .dropping x) ∨
          ∃ s', Relation.ReflTransGen Thread.GoesOn c''.thread s' ∧
            Thread.Returned rest c.thread.cur true s') ∧
    ∀ b, .ran c.thread.cur b ∈ c''.thread.log → b = true := by
  have hC : Stops c a := by
    obtain ⟨e, rest, rfl, -⟩ := of_failing hfailing
    trivial
  obtain ⟨houtput, hended⟩ := ended_of_failing h hfailing honly hC hs
  obtain ⟨hreach, hended'⟩ : ReachableUnder (observe Thread.step Thread.observeShutdown)
      Thread.ObservedStart Thread.Stops c''.observed ∧
        Thread.Ended c.thread.cur (polledTasks c.thread.log) c''.observed := by
    refine (observed_of_reachable stops_of_implied h').invariant
      (P := fun p => ReachableUnder (observe Thread.step Thread.observeShutdown)
        Thread.ObservedStart Thread.Stops p ∧
          Thread.Ended c.thread.cur (polledTasks c.thread.log) p) ?_ ?_
    · rintro p ⟨c₀, rfl, rfl⟩
      exact ⟨reachable_observed stops_of_implied (.next h hC hs), hended⟩
    · intro p b p' _ ih hC hs
      exact ⟨.next ih.1 hC hs, ih.2.step ih.1 hC hs⟩
  refine ⟨houtput, fun hcur => ?_, hended'.ran⟩
  obtain ⟨hover, hpolls⟩ := hended'.polls hcur
  refine ⟨hpolls, fun pc rest fd hstack hfd => ?_⟩
  have hflag : c''.thread.executor.shutdown = true := by
    rw [Thread.executor, hcur]
    exact hended'.flag
  have hends := Thread.ending_of_reachable hreach hp _ rest hstack hflag
  exact hcur ▸ Thread.returns_of_ends hover hstack hends hflag hp hfd

/-- The first of two tasks is checked and fails, and the second one is not polled. -/
theorem failed_task_ends_run_of_two : ∃ c c' c'' : Checked Unit Unit, ReachableUnder step IsStart Stops c ∧
    c.step (.plain (.ready (.error ()))) = some c' ∧ ReachableUnder step (· = c') Stops c'' ∧
      c''.thread.stack = [.run .afterTask, .user] ∧ c''.thread.runnable 1 ∧
        polledTasks c''.thread.log = polledTasks c.thread.log ∧
          ∃ s', Relation.ReflTransGen Thread.GoesOn c''.thread s' ∧ Thread.Returned [.user] 0 true s' := by
  obtain ⟨c, hc, h⟩ := exists_checked (V := Unit) (E := Unit) Stops
    [.spawnChecked .normal, .plain (.spawn .normal), .plain .run, .plain (.go (.ok []))]
    (fun c => (c.step (.plain (.ready (.error ())))).any fun c' : Checked Unit Unit =>
      (exec step (fun c a => decide (Stops c a)) c' [.plain (.go (.ok [])), .plain (.go (.ok []))]).any
        fun c'' : Checked Unit Unit => decide (c.failing (.plain (.ready (.error ()))) = some 0 ∧
          c.requests = [] ∧ c.thread.cur = 0 ∧ c''.thread.panicked = none ∧ c''.thread.cur = 0 ∧
            c''.thread.stack = [.run .afterTask, .user] ∧ c''.thread.pipeOf 4 = none ∧
              c''.thread.queues.home 1 = some (c''.thread.cur, runq (c''.thread.tasks 1).priority)))
    (by decide)
  obtain ⟨c', hs, h⟩ := (Option.any_eq_true _ _).mp h
  obtain ⟨c'', hexec, h⟩ := (Option.any_eq_true _ _).mp h
  obtain ⟨hfailing, hrequests, hcur, hp, hcur', hstack, hfd, hrun⟩ := of_decide_eq_true h
  have h' : ReachableUnder step (· = c') Stops c'' :=
    .of_exec (fun _ _ => of_decide_eq_true) (.init rfl) hexec
  obtain ⟨-, hended, -⟩ := failed_task_ends_run hc hfailing (by simp [hrequests]) hs h' hp
  obtain ⟨hpolls, hreturns⟩ := hended (hcur'.trans hcur.symm)
  obtain ⟨s', hgo, hret⟩ := (hreturns _ _ 4 hstack hfd).resolve_left (by simp)
  exact ⟨c, c', c'', hc, hs, h', hstack, hrun, hpolls, s', hgo, hcur ▸ hret⟩

end Checked

end Epox

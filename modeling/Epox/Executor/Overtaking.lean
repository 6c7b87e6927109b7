import Epox.Executor.Queueing
import Epox.Executor.Readiness
import Epox.Scheduler.Order

/-!
# Which wakes come before a selection

`run` waits for events between any two selections.  An observer notes which tasks have an outstanding wake
when `epoll_wait` is called (the pointer of the task is in the pipe, an event is queued for an `Fd` that
holds its waker, or a wake has returned since its latest poll), and of these the ones that have not been
put into their run queues since.

The task that `run` selects is at least as urgent as all of them, as long as every `epoll_wait` of `run`
reaches a task that is at least as urgent as each task it leaves behind, or finds one in the run queues
(`selection_in_order`).  If the buffer of events is large enough these are, for tasks of the executor, only
the ones whose pointers are behind the first one in the pipe: `epoll_wait` reads one pointer each time.
-/

namespace Epox

namespace Thread

variable {V : Type} {s s' : Thread V}

/-- The tasks that are in their run queues, or that the step reaches. -/
def willRun (s : Thread V) (a : Action V) : List TaskId :=
  (List.range s.nTasks).filter fun t => s.runnable t ∨ t ∈ s.reached a ∧ s.Wakeable t

/-- The next step of `run` selects a task: `run` is entered, or returns from `epoll_wait` without an
error. -/
def selectsNext (s : Thread V) : Action V → Bool
  | .go k =>
    match s.stack with
    | .run .waitZero :: _ | .run .waitNone :: _ =>
      match k with
      | .error .other => s.executor.events == 0
      | _ => true
    | _ => false
  | .run => true
  | _ => false

/-! ## The front of the run queues -/

/-- The front of the run queues is runnable and at least as urgent as every runnable task. -/
lemma front_spec (h : Reachable step IsStart s) {u : TaskId} (hfront : s.front = some u) :
    s.runnable u ∧ ∀ t, s.runnable t → (s.tasks u).priority ≤ (s.tasks t).priority := by
  obtain ⟨p, hhead, hbefore⟩ := Sched.exists_of_front (σ := s.abs) hfront
  obtain ⟨hu, rfl⟩ := (abs_reached h).placed.runnable_of_mem (List.mem_of_mem_head? hhead)
  refine ⟨hu, fun t ht => le_of_not_gt fun hlt => ?_⟩
  have hmem : t ∈ s.queues.list (s.cur, runq (s.tasks t).priority) := (s.queues.mem_list _ t).mpr ht
  have hnil : s.queues.list (s.cur, runq (s.tasks t).priority) = [] := hbefore _ hlt
  simp [hnil] at hmem

/-- A task that will run has been spawned. -/
lemma mem_willRun (h : s.Wf) {a : Action V} {t : TaskId} :
    t ∈ s.willRun a ↔ s.runnable t ∨ t ∈ s.reached a ∧ s.Wakeable t := by
  simp only [willRun, List.mem_filter, List.mem_range, decide_eq_true_eq, and_iff_right_iff_imp]
  rintro (hr | ⟨-, hw⟩)
  · exact h.ids t (alive_of_home hr)
  · exact h.ids t hw.1

/-! ## A full buffer -/

/-- If the buffer has room for all registrations, a full buffer reports all of them. -/
lemma mem_key_of_full {evs : List EpollEvent} (hk : s.answers (.ok evs))
    (hfull : evs.length = s.executor.events)
    (hroom : s.executor.interest.length < s.executor.events) {key : Option FdId}
    (hkey : key ∈ none :: s.executor.interest.map fun i => some i.2) :
    key ∈ evs.map EpollEvent.key := by
  obtain ⟨-, hnodup, hreports, -⟩ := hk
  have hsub : evs.map EpollEvent.key ⊆ none :: s.executor.interest.map fun i => some i.2 := by
    intro c hc
    obtain ⟨ev, hev, rfl⟩ := List.mem_map.mp hc
    cases ev with
    | pipe => exact List.mem_cons_self ..
    | fd f e =>
      exact List.mem_cons_of_mem _ (List.mem_map.mpr ⟨_, (hreports _ hev).2, rfl⟩)
  have hlen : (none :: s.executor.interest.map fun i => some i.2).length ≤
      (evs.map EpollEvent.key).length := by
    simp only [List.length_cons, List.length_map]
    omega
  exact ((List.subperm_of_subset hnodup hsub).perm_of_length_le hlen).symm.subset hkey

/-- A full buffer with room for all registrations reports the pipe. -/
lemma pipe_mem_of_full {evs : List EpollEvent} (hk : s.answers (.ok evs))
    (hfull : evs.length = s.executor.events)
    (hroom : s.executor.interest.length < s.executor.events) : .pipe ∈ evs := by
  obtain ⟨ev, hev, hkey⟩ := List.mem_map.mp (mem_key_of_full hk hfull hroom (List.mem_cons_self ..))
  cases ev with
  | pipe => exact hev
  | fd f e => simp [EpollEvent.key] at hkey

/-! ## The steps before a selection -/

/-- What a step before a selection does: the reached tasks are runnable after it. -/
structure Selects (s : Thread V) (a : Action V) (s' : Thread V) : Prop where
  runnable : ∀ t, s'.runnable t ↔ s.runnable t ∨ t ∈ s.reached a ∧ s.Wakeable t
  wakeable : ∀ t, s'.Wakeable t ↔ s.Wakeable t
  tasks : s'.tasks = s.tasks

/-- The loop of `run` is about to wait for events, and does. -/
lemma selectsNext_go {k : KernelAnswer} (h : s.selectsNext (.go k) = true) :
    ∃ pc rest, s.stack = .run pc :: rest ∧ (pc = .waitZero ∨ pc = .waitNone) ∧
      (k = .error .other → s.executor.events = 0) := by
  simp only [selectsNext] at h
  split at h
  · rename_i rest hstack
    exact ⟨_, rest, hstack, .inl rfl, fun hk => by simpa [hk] using h⟩
  · rename_i rest hstack
    exact ⟨_, rest, hstack, .inr rfl, fun hk => by simpa [hk] using h⟩
  · simp at h

/-- The loop of `run` waits for events: then it selects, or it returns the error. -/
lemma go_wait {k : KernelAnswer} {pc : RunPc} {rest : List Frame} (hstack : s.stack = .run pc :: rest)
    (hpc : pc = .waitZero ∨ pc = .waitNone) (h : s.go k = some s') (hp : s'.panicked = none) :
    ∃ s₁ fs, Effects s s₁ ∧ s' = s₁.setStack (fs ++ rest) ∧
      (fs = [.run .select] ∧ s.epollWait k = .ok s₁ ∨ fs = []) := by
  have heff := epollWait_effects s k
  have hgo : s.goRun k rest pc = some s' := by
    rw [← h]
    simp [go, hstack]
  rcases hpc with rfl | rfl <;>
  · simp only [goRun] at hgo
    cases ho : s.epollWait k with
    | ok s₁ =>
      simp only [ho, Option.some.injEq] at hgo heff
      exact ⟨s₁, [.run .select], heff, hgo.symm, .inl ⟨rfl, rfl⟩⟩
    | err s₁ =>
      simp only [ho, Option.some.injEq] at hgo heff
      exact ⟨s₁, [], heff, hgo.symm, .inr rfl⟩
    | panic p s₁ =>
      simp only [ho, Option.some.injEq] at hgo
      simp [← hgo, panic] at hp

/-- The steps before a selection. -/
lemma selects_of_step {a : Action V} (h : s.step a = some s') (hp : s'.panicked = none)
    (hsel : s.selectsNext a = true) : Selects s a s' := by
  cases (acts_of_step h).2 with
  | run =>
    refine ⟨fun t => ?_, fun t => Iff.rfl, rfl⟩
    simp [reached, reported, waitsWith, invoked, Thread.runnable, Thread.setStack]
  | go k hk hact =>
    obtain ⟨pc, rest, hstack, hpc, -⟩ := selectsNext_go hsel
    have hi : s.invoked (.go k) = none := by simp [invoked, hstack]
    have hw : s.waitsWith (.go k) = some k := by
      rcases hpc with rfl | rfl <;> simp [waitsWith, hstack]
    obtain ⟨-, hpanic, hqueues⟩ := queues_of_wait hact hp hw hi
    have hreached : s.reached (.go k) = k.list.filterMap s.target := by
      simp [reached, reported, hw, hi]
    have hrest : s'.cur = s.cur ∧ s'.tasks = s.tasks ∧ ∀ t, s'.alive t = s.alive t := by
      obtain ⟨s₁, fs, heff, rfl, hfs⟩ := go_wait hstack hpc hact hp
      have hst := heff.steady
      refine ⟨hst.cur, hst.tasks, fun t => ?_⟩
      have hrunning : (s₁.setStack (fs ++ rest)).running = s₁.running := by
        simp only [running, Thread.setStack, hst.stack, hstack]
        rcases hfs with ⟨rfl, -⟩ | rfl <;> rfl
      rw [← hst.alive t, alive, hrunning]
      rfl
    refine ⟨fun t => ?_, fun t => by rw [Wakeable, hrest.2.2, hrest.2.1, Wakeable], hrest.2.1⟩
    rw [Thread.runnable, hqueues, (epollWait_woke hk hpanic).home, hrest.1, hrest.2.1, hreached, homeAfter]
    split_ifs with ht
    · exact iff_of_true rfl (.inr ht)
    · exact (or_iff_left ht).symm
  | _ => simp [selectsNext] at hsel

/-- `run` selects after it has waited for events without an error. -/
lemma selectsNext_of_select (hwf : s.Wf) {k : KernelAnswer} {pc : RunPc} {rest rest' : List Frame}
    (hstack : s.stack = .run pc :: rest) (hpc : pc = .waitZero ∨ pc = .waitNone)
    (h : s.step (.go k) = some s') (hp : s'.panicked = none)
    (hstack' : s'.stack = .run .select :: rest') : s.selectsNext (.go k) = true := by
  obtain ⟨-, hgo⟩ := go_of_step h
  obtain ⟨s₁, fs, heff, rfl, ⟨rfl, hok⟩ | rfl⟩ := go_wait hstack hpc hgo hp
  · have hk : k = .error .other → s.executor.events = 0 := by
      rintro rfl
      by_contra h0
      simp [epollWait, h0] at hok
    rcases hpc with rfl | rfl <;>
    · simp only [selectsNext, hstack]
      split
      · simpa using hk rfl
      · rfl
  · -- The caller of `run` is not about to select.
    have hc := hwf.calling (.run .select) (by simp [hstack, show rest = _ from hstack'])
    simp [Frame.calling] at hc

/-- Between a selection and the step before it only other threads do anything. -/
lemma waitsWith_of_select {a : Action V} {rest : List Frame} (h : s.step a = some s')
    (hstack : s.stack = .run .select :: rest) : s.waitsWith a = none := by
  have hu : s.inUserCode = false := by simp [inUserCode, hstack]
  cases a with
  | go k => simp [waitsWith, hstack]
  | wake w k | pollWith f cx k =>
    cases (acts_of_step h).2
    simp_all
  | _ => rfl

end Thread

namespace Epoll

variable {V : Type} {q q' : Epoll V}

/-! ## Outstanding wakes -/

/-- The kernel has an event for a registered `Fd`. -/
def Pending (q : Epoll V) (f : FdId) : Prop :=
  q.thread.inInterest f ∧ q.ready f &&& q.mask f &&& q.edge f ≠ 0

instance (q : Epoll V) (f : FdId) : Decidable (q.Pending f) := by
  unfold Pending
  infer_instance

/-- A wake of the task is outstanding: one has returned since its latest poll began, its pointer is in the
pipe, or there is an event for an `Fd` on which it waits. -/
def Issued (q : Epoll V) (t : TaskId) : Prop :=
  WakePending t q.thread.log ∨ some t ∈ q.thread.executor.pipe ∨
    ∃ f, f < q.thread.nFds ∧ q.parked f = some (.task t) ∧ q.Pending f

instance (q : Epoll V) (t : TaskId) : Decidable (q.Issued t) := by
  unfold Issued
  infer_instance

/-- A state and the tasks with a wake that was issued before the latest `epoll_wait` and has not been
delivered. -/
abbrev Watched (V : Type) := Epoll V × List TaskId

/-- A thread at its start. -/
abbrev WatchedStart (p : Watched V) : Prop := IsStart p.1 ∧ p.2 = []

/-- The step calls `epoll_wait`. -/
def waits (q : Epoll V) : EpollAction V → Bool
  | .thread a => (q.thread.waitsWith a).isSome
  | _ => false

/-- The tasks with a wake that was issued before the latest `epoll_wait`, that of the step included. -/
def outstanding (p : Watched V) (b : EpollAction V) : List TaskId :=
  if p.1.waits b then (List.range p.1.thread.nTasks).filter fun t => p.1.Issued t else p.2

/-- How the observer follows a step: a task that is in its run queue has been woken. -/
def observeWakes (q : Epoll V) (b : EpollAction V) (q' : Epoll V) (l : List TaskId) : List TaskId :=
  (outstanding (q, l) b).filter fun t => ¬ q'.thread.runnable t

/-- Before a selection every task with an outstanding wake is outranked: unless no task will be in the run
queues, one will that is at least as urgent. -/
def KeepsUp (p : Watched V) : EpollAction V → Prop
  | .thread a => p.1.thread.selectsNext a = true → ∀ t ∈ outstanding p (.thread a),
      p.1.thread.Wakeable t → p.1.thread.willRun a = [] ∨
        ∃ u ∈ p.1.thread.willRun a, (p.1.thread.tasks u).priority ≤ (p.1.thread.tasks t).priority
  | _ => True

instance (p : Watched V) : (b : EpollAction V) → Decidable (KeepsUp p b)
  | .thread a => inferInstanceAs (Decidable (p.1.thread.selectsNext a = true →
      ∀ t ∈ outstanding p (.thread a), p.1.thread.Wakeable t → p.1.thread.willRun a = [] ∨
        ∃ u ∈ p.1.thread.willRun a, (p.1.thread.tasks u).priority ≤ (p.1.thread.tasks t).priority))
  | .wouldBlock _ | .arrive _ _ | .recede _ _ | .notify _ _ | .forget _ _ | .lose _ => .isTrue trivial

/-- The front of the run queues is at least as urgent as every task with an undelivered wake. -/
def InOrder (p : Watched V) : Prop :=
  ∀ u, p.1.thread.front = some u → ∀ t ∈ p.2, p.1.thread.Wakeable t →
    (p.1.thread.tasks u).priority ≤ (p.1.thread.tasks t).priority

/-- A step of the thread. -/
lemma threadStep_of_step {a : Action V} (h : q.step (.thread a) = some q') : q.threadStep a = some q' := by
  rcases step_cases h with ⟨a', hb, ha⟩ | ⟨hb, -⟩
  · obtain ⟨rfl, -⟩ : a = a' ∧ _ := by simpa using hb
    exact ha
  · exact absurd rfl (hb a)

/-- The tasks with undelivered wakes after a step. -/
lemma mem_observed {p p' : Watched V} {b : EpollAction V} {t : TaskId}
    (h : observe step observeWakes p b = some p') :
    t ∈ p'.2 ↔ t ∈ outstanding p b ∧ ¬ p'.1.thread.runnable t := by
  rw [(observe_eq_some.mp h).2, observeWakes, List.mem_filter, decide_eq_true_eq]

/-- The task that is selected next is at least as urgent as every task with an undelivered wake exactly if
the step before keeps up. -/
lemma keepsUp_iff {p p' : Watched V} {a : Action V} (hr : Reachable step IsStart p.1)
    (h : observe step observeWakes p (.thread a) = some p') (hp : p'.1.thread.panicked = none)
    (hsel : p.1.thread.selectsNext a = true) : KeepsUp p (.thread a) ↔ InOrder p' := by
  have hs := (observe_eq_some.mp h).1
  obtain ⟨-, hstep, -⟩ := threadStep_eq_some (threadStep_of_step hs)
  have hselects := Thread.selects_of_step hstep hp hsel
  have hwf := Thread.wf_of_reachable (reachable_thread hr)
  have hfront := fun u hu => Thread.front_spec (reachable_thread (.next hr trivial hs)) (u := u) hu
  have hmem : ∀ t, t ∈ p.1.thread.willRun a ↔ p'.1.thread.runnable t := fun t =>
    (Thread.mem_willRun hwf).trans (hselects.runnable t).symm
  rw [hselects.tasks] at hfront
  constructor
  · intro hC u hu t ht hw
    obtain ⟨ht, -⟩ := (mem_observed h).mp ht
    rw [hselects.tasks]
    rcases hC hsel t ht ((hselects.wakeable t).mp hw) with hnil | ⟨v, hv, hle⟩
    · have hmem := (hmem u).mpr (hfront u hu).1
      simp [hnil] at hmem
    · exact ((hfront u hu).2 v ((hmem v).mp hv)).trans hle
  · intro hO _ t ht hw
    by_cases hrun : p'.1.thread.runnable t
    · exact .inr ⟨t, (hmem t).mpr hrun, le_rfl⟩
    · refine or_iff_not_imp_left.mpr fun hne => ?_
      obtain ⟨v, hv⟩ := List.exists_mem_of_ne_nil _ hne
      obtain ⟨u, hu⟩ := Thread.exists_front ((hmem v).mp hv)
      have hle := hO u hu t ((mem_observed h).mpr ⟨ht, hrun⟩) ((hselects.wakeable t).mpr hw)
      rw [hselects.tasks] at hle
      exact ⟨u, (hmem u).mpr (hfront u hu).1, hle⟩

/-- Nothing that other threads or descriptors do makes a task overtake another one. -/
lemma InOrder.foreign {p p' : Watched V} (ho : InOrder p) (hfront : p'.1.thread.front = p.1.thread.front)
    (htasks : p'.1.thread.tasks = p.1.thread.tasks)
    (halive : ∀ t, p'.1.thread.alive t = true → p.1.thread.alive t = true)
    (hsub : ∀ t ∈ p'.2, t ∈ p.2) : InOrder p' := by
  intro u hu t ht hw
  rw [htasks]
  exact ho u (hfront ▸ hu) t (hsub t ht) ⟨halive t hw.1, htasks ▸ hw.2⟩

/-- Every step that keeps up leaves the front of the run queues in order if `run` selects next. -/
lemma inOrder_step {p p' : Watched V} {b : EpollAction V} (hr : Reachable step IsStart p.1)
    (h : observe step observeWakes p b = some p') (hp : p'.1.thread.panicked = none)
    (hC : KeepsUp p b) (ho : ∀ rest, p.1.thread.stack = .run .select :: rest → InOrder p)
    {rest : List Frame} (hstack' : p'.1.thread.stack = .run .select :: rest) : InOrder p' := by
  have hs := (observe_eq_some.mp h).1
  have hsub : p.1.waits b = false → ∀ t ∈ p'.2, t ∈ p.2 := by
    intro hw t ht
    have ht := ((mem_observed h).mp ht).1
    rwa [outstanding, if_neg (by simp [hw])] at ht
  rcases step_cases hs with ⟨a, hb, ha⟩ | ⟨hb, -, hthread, -, -⟩
  · obtain ⟨-, hstep, -⟩ := threadStep_eq_some ha
    have hwf := Thread.wf_of_reachable (reachable_thread hr)
    -- No step of another thread calls `epoll_wait`.
    have hforeign : Thread.Undisturbed p.1.thread p'.1.thread → InOrder p' := by
      intro hu
      have hselect := hu.stack.symm.trans hstack'
      refine (ho rest hselect).foreign hu.front hu.tasks (fun t ht => ?_) (hsub ?_)
      · rw [Thread.alive_iff, hu.queues, hu.tasks, Thread.running, hu.stack] at ht
        rcases ht with ht | ht | ht | ht
        · exact Thread.alive_iff.mpr (.inl ht)
        · exact Thread.alive_of_handle ht
        · exact Thread.alive_of_running ht
        · rcases Thread.waking_of_step hstep ht with ht | ⟨-, halive⟩
          · exact Thread.alive_iff.mpr (.inr (.inr (.inr ht)))
          · exact halive
      · rcases hb with ⟨rfl, -⟩ | ⟨d, f, rfl, -⟩
        · simp [waits, Thread.waitsWith_of_select hstep hselect]
        · rfl
    cases (Thread.move_of_step hstep).2.top hwf hp with
    | calling hcalling =>
      have hc := hcalling (.run .select) (by simp [hstack'])
      simp [Frame.calling] at hc
    | passing hstack hf =>
      obtain ⟨rfl, -⟩ := List.cons.inj (hstack'.symm.trans hstack)
      simp [Frame.passing] at hf
    | @jump f g fs rest₀ s₁ hstack hj hs₁ =>
      have hsel : p.1.thread.selectsNext a = true := by
        obtain ⟨rfl, -⟩ : g = .run .select ∧ _ := by
          rw [hs₁] at hstack'
          exact List.cons.inj hstack'
        cases hj with
        | enterRun hu => rfl
        | runWaited hpc heff => exact Thread.selectsNext_of_select hwf hstack hpc hstep hp hstack'
      obtain ⟨rfl, -⟩ | ⟨d, f, -, rfl, -⟩ := hb
      · exact (keepsUp_iff hr h hp hsel).mp hC
      · simp [Thread.selectsNext] at hsel
    | foreignUpgrade hs' => exact hforeign (hs' ▸ Thread.foreignUpgrade_undisturbed _ _)
    | foreignWrite ha' hs' => exact hforeign (hs' ▸ Thread.foreignWrite_undisturbed _ _)
    | foreignBlockOn ha' hs' => exact hforeign (hs' ▸ Thread.foreignBlockOn_undisturbed _ _)
  · refine (ho rest (hthread ▸ hstack')).foreign ?_ ?_ ?_ (hsub ?_)
    · rw [hthread]
    · rw [hthread]
    · exact fun t ht => hthread ▸ ht
    · cases b with
      | thread a => exact absurd rfl (hb a)
      | _ => rfl

/-! ## What `epoll_wait` leaves behind -/

/-- The kernel reports every pending descriptor, as long as the buffer has room. -/
def Prompt (q : Epoll V) : KernelAnswer → Prop
  | .ok evs => ∀ f, q.Pending f →
      some f ∈ evs.map EpollEvent.key ∨ evs.length = q.thread.executor.events
  | .error .eintr => ∀ f, ¬ q.Pending f
  | .error .other => True

/-- The event that a pending descriptor gets wakes the task that waits on it. -/
lemma target_of_parked {f : FdId} {t : TaskId} {e : EpollFlags}
    (h : q.thread.Parked f (.task t)) (he : e ≠ 0) : q.thread.target (.fd f e) = some t := by
  simp only [Thread.target, h.events, h.waker, EpollFlags.contains_zero he, Bool.false_eq_true, if_false]

/-- A task with an outstanding wake is runnable after `run` has waited for events, if the buffer has room
for all registrations, unless its pointer is behind the first one in the pipe or it was spawned on an
executor that has been replaced. -/
lemma runnable_of_issued (hr : Reachable step IsStart q) {k : KernelAnswer} {pc : RunPc}
    {rest : List Frame} (hstack : q.thread.stack = .run pc :: rest)
    (hpc : pc = .waitZero ∨ pc = .waitNone) (h : q.step (.thread (.go k)) = some q')
    (hp : q'.thread.panicked = none) (hk : k ≠ .error .other) (hprompt : q.Prompt k)
    (hroom : q.thread.executor.interest.length < q.thread.executor.events) {t : TaskId}
    (hissued : q.Issued t) (hw : q.thread.Wakeable t) : q'.thread.runnable t ∨
      some t ∈ q.thread.executor.pipe.tail ∨ (q.thread.tasks t).exec ≠ q.thread.cur := by
  obtain ⟨-, hstep, -⟩ := threadStep_eq_some (threadStep_of_step h)
  have hreach := reachable_thread hr
  have hn := (Thread.move_of_step hstep).1
  have hanswers := (Thread.go_of_step hstep).1
  have hsel : q.thread.selectsNext (.go k) = true := by
    rcases hpc with rfl | rfl <;> simp only [Thread.selectsNext, hstack]
  have hselects := Thread.selects_of_step hstep hp hsel
  have hreached : q.thread.reached (.go k) = k.list.filterMap q.thread.target := by
    rcases hpc with rfl | rfl <;>
      simp [Thread.reached, Thread.reported, Thread.waitsWith, Thread.invoked, hstack]
  -- It is enough that an event is aimed at the task.
  have htarget : ∀ ev ∈ k.list, q.thread.target ev = some t → q'.thread.runnable t := by
    intro ev hev ht
    refine (hselects.runnable t).mpr (.inr ⟨?_, hw⟩)
    rw [hreached]
    exact List.mem_filterMap.mpr ⟨ev, hev, ht⟩
  have hpipe : some t ∈ q.thread.executor.pipe →
      q'.thread.runnable t ∨ some t ∈ q.thread.executor.pipe.tail := by
    intro hm
    cases hlist : q.thread.executor.pipe with
    | nil => simp [hlist] at hm
    | cons x tail =>
      rcases List.mem_cons.mp (hlist ▸ hm) with rfl | hm
      · left
        cases k with
        | error e => cases e <;> simp_all [Thread.answers]
        | ok evs =>
          obtain ⟨-, -, -, hreported⟩ := id hanswers
          refine htarget .pipe ?_ (by simp [Thread.target, hlist])
          rcases hreported (by simp [hlist]) with hmem | hfull
          · exact hmem
          · exact Thread.pipe_mem_of_full hanswers hfull hroom
      · exact .inr hm
  rcases hissued with hwake | hm | ⟨f, hf, hparked, hpending⟩
  · by_cases hexec : (q.thread.tasks t).exec = q.thread.cur
    · have ht := (Thread.wf_of_reachable hreach).ids t hw.1
      rcases (Thread.woken_task_delivered hreach hn ht hexec hw.2 hwake (.inl hw.1)).1 with hrun | hm
      · exact .inl ((hselects.runnable t).mpr (.inl hrun))
      · exact (hpipe hm).imp_right .inl
    · exact .inr (.inr hexec)
  · exact (hpipe hm).imp_right .inl
  · left
    have hheld := parkedOk_of_reachable hr hn f _ hparked
    cases k with
    | error e =>
      cases e with
      | eintr => exact absurd hpending (hprompt f)
      | other => exact absurd rfl hk
    | ok evs =>
      have hkey : some f ∈ evs.map EpollEvent.key := by
        rcases hprompt f hpending with hmem | hfull
        · exact hmem
        · refine Thread.mem_key_of_full hanswers hfull hroom (List.mem_cons_of_mem _ ?_)
          exact List.mem_map.mpr ⟨_, hpending.1, rfl⟩
      obtain ⟨ev, hev, hkey⟩ := List.mem_map.mp hkey
      cases ev with
      | pipe => simp [EpollEvent.key] at hkey
      | fd g e =>
        obtain rfl : g = f := by simpa [EpollEvent.key] using hkey
        exact htarget _ hev (target_of_parked hheld (hanswers.2.2.1 _ hev).1)

/-! ## Selections -/

/-- What an observed machine reaches, the machine reaches. -/
lemma reachable_of_watched {D : Watched V → EpollAction V → Prop} {p : Watched V}
    (h : ReachableUnder (observe step observeWakes) WatchedStart D p) : Reachable step IsStart p.1 :=
  h.of_observe

/-- In every run that keeps up, the task that `run` selects is at least as urgent as every task that has a
wake issued before the latest `epoll_wait` and has not been put into its run queue since.  A step before a
selection keeps up exactly if this holds after it.  If the buffer has room for all registrations, an
`epoll_wait` of `run` that does not fail puts all tasks into their run queues for which a wake was issued,
but for those whose pointers are behind the first one in the pipe and those spawned on an executor that has
been replaced. -/
theorem selection_in_order {p : Watched V}
    (h : ReachableUnder (observe step observeWakes) WatchedStart KeepsUp p)
    (hp : p.1.thread.panicked = none) :
    (∀ k q' rest u, p.1.thread.stack = .run .select :: rest → p.1.step (.thread (.go k)) = some q' →
      q'.thread.log = .polled u :: p.1.thread.log → ∀ t ∈ p.2, p.1.thread.Wakeable t →
        (p.1.thread.tasks u).priority ≤ (p.1.thread.tasks t).priority) ∧
    (∀ a p', observe step observeWakes p (.thread a) = some p' → p'.1.thread.panicked = none →
      p.1.thread.selectsNext a = true → (KeepsUp p (.thread a) ↔ InOrder p')) ∧
    ∀ k q' pc rest, p.1.thread.stack = .run pc :: rest → (pc = .waitZero ∨ pc = .waitNone) →
      p.1.step (.thread (.go k)) = some q' → q'.thread.panicked = none → k ≠ .error .other →
        p.1.Prompt k → p.1.thread.executor.interest.length < p.1.thread.executor.events →
          ∀ t, p.1.Issued t → p.1.thread.Wakeable t → q'.thread.runnable t ∨
            some t ∈ p.1.thread.executor.pipe.tail ∨ (p.1.thread.tasks t).exec ≠ p.1.thread.cur := by
  have hr := reachable_of_watched h
  have hinv : p.1.thread.panicked = none → ∀ rest, p.1.thread.stack = .run .select :: rest →
      InOrder p := by
    refine h.invariant (P := fun p : Watched V => p.1.thread.panicked = none →
      ∀ rest, p.1.thread.stack = .run .select :: rest → InOrder p) ?_ ?_
    · rintro p ⟨-, hnil⟩ - rest - u - t ht
      simp [hnil] at ht
    · intro p b p' hreach ih hC hs hn rest hstack
      refine inOrder_step (reachable_of_watched hreach) hs hn hC (ih ?_) hstack
      rcases step_cases (observe_eq_some.mp hs).1 with ⟨a, -, ha⟩ | ⟨-, -, hthread, -⟩
      · exact (Thread.move_of_step (threadStep_eq_some ha).2.1).1
      · exact hthread ▸ hn
  refine ⟨fun k q' rest u hstack hs hlog t ht hw => ?_,
    fun a p' hs hn hsel => keepsUp_iff hr hs hn hsel,
    fun k q' pc rest hstack hpc hs hn hk hprompt hroom t => ?_⟩
  · obtain ⟨-, hstep, -⟩ := threadStep_eq_some (threadStep_of_step hs)
    obtain ⟨-, -, -, -, -, -, -, hfront⟩ := (Thread.move_of_step hstep).2.of_polled hlog
    exact hinv hp rest hstack u hfront t ht hw
  · exact runnable_of_issued hr hstack hpc hs hn hk hprompt hroom

/-- A state with a property that is reached, with the observer, by executing a sequence of actions. -/
lemma exists_watched (C : Watched V → EpollAction V → Prop) [∀ p b, Decidable (C p b)]
    (actions : List (EpollAction V)) (P : Watched V → Bool)
    (hP : (exec (observe step observeWakes) (fun p b => decide (C p b)) (start V, []) actions).any P =
      true) :
    ∃ p : Watched V, ReachableUnder (observe step observeWakes) WatchedStart C p ∧ P p = true :=
  ReachableUnder.exists_run _ _
    ⟨⟨⟨3, 16, by decide, rfl⟩, rfl, rfl, rfl⟩, rfl⟩ actions hP

/-- Another thread wakes two tasks, the more urgent one first, while a task is being polled. -/
theorem selection_in_order_of_two : ∃ (p : Watched Unit) (q' : Epoll Unit),
    ReachableUnder (observe step observeWakes) WatchedStart KeepsUp p ∧
      p.1.thread.stack = [.run .select, .user] ∧ p.2 = [1] ∧
        p.1.step (.thread (.go (.ok [.pipe]))) = some q' ∧ q'.thread.log = .polled 0 :: p.1.thread.log ∧
          (p.1.thread.tasks 0).priority ≤ (p.1.thread.tasks 1).priority := by
  obtain ⟨p, hp, h⟩ := exists_watched (V := Unit) KeepsUp
    [.thread (.spawn .high), .thread (.spawn .low), .thread .run, .thread (.go (.ok [])),
      .thread .pending, .thread (.go (.ok [])), .thread (.go (.ok [])), .thread (.go (.ok [])),
      .thread (.go (.ok [])), .thread (.foreignUpgrade 0), .thread (.foreignWrite 0),
      .thread (.foreignUpgrade 1), .thread (.foreignWrite 1), .thread .pending,
      .thread (.go (.ok [.pipe])), .thread (.go (.ok [.pipe])), .thread (.go (.ok [.pipe]))]
    (fun p => (p.1.step (.thread (.go (.ok [.pipe])))).any fun q' : Epoll Unit => decide (
      p.1.thread.panicked = none ∧ p.1.thread.stack = [.run .select, .user] ∧ p.2 = [1] ∧
        q'.thread.log = .polled 0 :: p.1.thread.log ∧ p.1.thread.Wakeable 1)) (by decide)
  obtain ⟨q', hs, h⟩ := (Option.any_eq_true _ _).mp h
  obtain ⟨hn, hstack, hleft, hlog, hw⟩ := of_decide_eq_true h
  obtain ⟨horder, -⟩ := selection_in_order hp hn
  exact ⟨p, q', hp, hstack, hleft, hs, hlog, horder _ q' _ 0 hstack hs hlog 1 (by simp [hleft]) hw⟩

/-- Another thread wakes two tasks, the more urgent one last, while a task is being polled: `epoll_wait`
reads the pointer of the other one, which is polled while that of the more urgent one is in the pipe. -/
theorem overtaken_by_pipe : ∃ (p : Watched Unit) (q' : Epoll Unit),
    Reachable (observe step observeWakes) WatchedStart p ∧
      p.1.thread.stack = [.run .select, .user] ∧ p.1.thread.executor.pipe = [some 0] ∧ 0 ∈ p.2 ∧
        p.1.thread.Wakeable 0 ∧ p.1.step (.thread (.go (.ok [.pipe]))) = some q' ∧
          q'.thread.log = .polled 1 :: p.1.thread.log ∧
            (p.1.thread.tasks 0).priority < (p.1.thread.tasks 1).priority := by
  obtain ⟨p, hp, h⟩ := exists_watched (V := Unit) (fun _ _ => True)
    [.thread (.spawn .high), .thread (.spawn .low), .thread .run, .thread (.go (.ok [])),
      .thread .pending, .thread (.go (.ok [])), .thread (.go (.ok [])), .thread (.go (.ok [])),
      .thread (.go (.ok [])), .thread (.foreignUpgrade 1), .thread (.foreignWrite 1),
      .thread (.foreignUpgrade 0), .thread (.foreignWrite 0), .thread .pending,
      .thread (.go (.ok [.pipe])), .thread (.go (.ok [.pipe])), .thread (.go (.ok [.pipe]))]
    (fun p => (p.1.step (.thread (.go (.ok [.pipe])))).any fun q' : Epoll Unit => decide (
      p.1.thread.stack = [.run .select, .user] ∧ p.1.thread.executor.pipe = [some 0] ∧ 0 ∈ p.2 ∧
        p.1.thread.Wakeable 0 ∧ q'.thread.log = .polled 1 :: p.1.thread.log ∧
          (p.1.thread.tasks 0).priority = .high ∧ (p.1.thread.tasks 1).priority = .low)) (by decide)
  obtain ⟨q', hs, h⟩ := (Option.any_eq_true _ _).mp h
  obtain ⟨hstack, hpipe, hleft, hw, hlog, h0, h1⟩ := of_decide_eq_true h
  refine ⟨p, q', hp, hstack, hpipe, hleft, hw, hs, hlog, ?_⟩
  rw [h0, h1]
  decide

end Epoll

end Epox

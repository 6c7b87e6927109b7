import Epox.Scheduler.Order

/-!
# Yielding

The future of `yield_now` wakes the task that polls it, which checks for events and puts the task at the
back of its run queue, and is ready when it is polled again.  An observer of one task notes the tasks of
the same priority or a higher one that are in the run queues when it yields, until they are polled or
aborted.

A task that has yielded is polled next when it is the front of the run queues.  A task that the observer
still knows then is of the same priority, and behind: it has been woken since.
-/

namespace Epox

variable {V : Type}

/-! ## The future -/

/-- `struct YieldFuture`. -/
structure YieldFuture where
  yielded : Bool
  deriving DecidableEq

/-- `YieldFuture::new`. -/
def YieldFuture.new : YieldFuture := ⟨false⟩

/-- `YieldFuture::poll`: what it does to the thread, and whether it is ready. -/
def YieldFuture.poll (y : YieldFuture) (s : Thread V) (k : KernelAnswer) (cx : Waker) :
    Outcome V × YieldFuture × Option Unit :=
  if y.yielded then (.ok s, y, some ()) else (s.wake k cx, { yielded := true }, none)

/-- The first poll wakes the task and is pending; every other one is ready and does nothing. -/
lemma YieldFuture.poll_spec {s s' : Thread V} {k : KernelAnswer} {cx : Waker}
    (h : s.step (.wake cx k) = some s') :
    (new.poll s k cx).1.thread = s' ∧ (new.poll s k cx).2.2 = none ∧
      ∀ (s₁ : Thread V) k₁ cx₁, (new.poll s k cx).2.1.poll s₁ k₁ cx₁ =
        (.ok s₁, (new.poll s k cx).2.1, some ()) := by
  obtain ⟨-, hacts⟩ := Thread.acts_of_step h
  cases hacts with
  | wake w k hu hw hk => exact ⟨rfl, rfl, fun _ _ _ => rfl⟩

/-! ## Runnable tasks -/

namespace Sched

variable {σ σ' σ'' : Sched}

/-- The scheduler goes on, and `l` happens: a task that is neither polled nor aborted stays in its run
queue, unless the executor is replaced. -/
structure Onward (σ : Sched) (l : List Event) (σ' : Sched) : Prop where
  log : σ'.log = l ++ σ.log
  cur : σ.cur ≤ σ'.cur
  nTasks : σ.nTasks ≤ σ'.nTasks
  priority : ∀ u < σ.nTasks, σ'.priority u = σ.priority u
  runnable : ∀ u < σ.nTasks, σ.runnable u → σ'.cur = σ.cur → .polled u ∉ l → .aborted u ∉ l →
    σ'.runnable u

/-- Nothing happens. -/
lemma Onward.refl (σ : Sched) : σ.Onward [] σ :=
  ⟨rfl, le_rfl, le_rfl, fun _ _ => rfl, fun _ _ hu _ _ _ => hu⟩

/-- One thing happens after another. -/
lemma Onward.trans {l l' : List Event} (h : σ.Onward l σ') (h' : σ'.Onward l' σ'') :
    σ.Onward (l' ++ l) σ'' where
  log := by rw [h'.log, h.log, List.append_assoc]
  cur := h.cur.trans h'.cur
  nTasks := h.nTasks.trans h'.nTasks
  priority u hu := (h'.priority u (hu.trans_le h.nTasks)).trans (h.priority u hu)
  runnable u hu hrun hcur hpolled haborted := by
    simp only [List.mem_append, not_or] at hpolled haborted
    have hcur₁ : σ'.cur = σ.cur := le_antisymm (hcur ▸ h'.cur) h.cur
    exact h'.runnable u (hu.trans_le h.nTasks) (h.runnable u hu hrun hcur₁ hpolled.2 haborted.2)
      (hcur.trans hcur₁.symm) hpolled.1 haborted.1

/-- One move. -/
lemma Step.onward (h : Step σ σ') (hcr : σ'.crashed = false) : ∃ l, σ.Onward l σ' := by
  cases h with
  | spawn p =>
    refine ⟨[.enqueued σ.nTasks, .spawned σ.nTasks], rfl, le_rfl, Nat.le_succ _, fun u hu => ?_,
      fun u hu hrun _ _ _ => ?_⟩
    · exact Function.update_of_ne hu.ne _ _
    · simpa [Sched.runnable, Family.home_push, hu.ne] using hrun
  | enqueue t | receive t =>
    refine ⟨[.enqueued t], rfl, le_rfl, le_rfl, fun _ _ => rfl, fun u _ hrun _ _ _ => ?_⟩
    by_cases hut : u = t
    · simp [Sched.runnable, hut]
    · simpa [Sched.runnable, Family.home_push, hut] using hrun
  | select t =>
    refine ⟨[.polled t], rfl, le_rfl, le_rfl, fun _ _ => rfl, fun u _ hrun _ hpolled _ => ?_⟩
    have hut : u ≠ t := by simpa using hpolled
    simpa [Sched.runnable, Family.home_release, hut] using hrun
  | abort t =>
    refine ⟨[.aborted t], rfl, le_rfl, le_rfl, fun _ _ => rfl, fun u _ hrun _ _ haborted => ?_⟩
    have hut : u ≠ t := by simpa using haborted
    simpa [Sched.runnable, Family.home_release, hut] using hrun
  | sleep t r hpolls hq =>
    refine ⟨[], rfl, le_rfl, le_rfl, fun _ _ => rfl, fun u _ hrun _ _ _ => ?_⟩
    have hut : u ≠ t := by
      rintro rfl
      simp [Sched.runnable, hq] at hrun
    simpa [Sched.runnable, Family.home_push, hut] using hrun
  | discard t q hq hcur =>
    refine ⟨[.discarded t], rfl, le_rfl, le_rfl, fun _ _ => rfl, fun u _ hrun _ _ _ => ?_⟩
    have hut : u ≠ t := by
      rintro rfl
      obtain rfl := Option.some.inj (hq.symm.trans hrun)
      exact hcur rfl
    simpa [Sched.runnable, Family.home_release, hut] using hrun
  | replace =>
    exact ⟨[], rfl, Nat.le_succ _, le_rfl, fun _ _ => rfl, fun _ _ _ hcur => by simp at hcur⟩
  | crash => simp at hcr
  | ready t => exact ⟨[.ready t], rfl, le_rfl, le_rfl, fun _ _ => rfl, fun _ _ hrun _ _ _ => hrun⟩
  | complete t =>
    exact ⟨[.completed t], rfl, le_rfl, le_rfl, fun _ _ => rfl, fun _ _ hrun _ _ _ => hrun⟩
  | note e => exact ⟨[e], rfl, le_rfl, le_rfl, fun _ _ => rfl, fun _ _ hrun _ _ _ => hrun⟩
  | keep | write | drain | refs =>
    exact ⟨[], rfl, le_rfl, le_rfl, fun _ _ => rfl, fun _ _ hrun _ _ _ => hrun⟩

/-- Any number of moves. -/
lemma onward_of_reaches (h : Relation.ReflTransGen Step σ σ') (hcr : σ'.crashed = false) :
    ∃ l, σ.Onward l σ' := by
  induction h with
  | refl => exact ⟨[], .refl σ⟩
  | tail _ hs ih =>
    obtain ⟨l, hl⟩ := ih (hs.crashed hcr)
    obtain ⟨l', hl'⟩ := hs.onward hcr
    exact ⟨l' ++ l, hl.trans hl'⟩

end Sched

namespace Thread

variable {s s' : Thread V} {t u : TaskId}

/-- A step of the thread is one of the scheduler. -/
lemma onward_of_step {a : Action V} (h : Reachable step IsStart s) (hs : s.step a = some s')
    (hp : s'.panicked = none) : ∃ l, s.abs.Onward l s'.abs :=
  Sched.onward_of_reaches ((move_of_step hs).2.refines (wf_of_reachable h)) (by simp [abs, hp])

/-- The first task has been enqueued, and the second one not since. -/
def EnqueuedBehind (u t : TaskId) : List Event → Prop :=
  Since (· = .enqueued u) (· = .enqueued t)

instance (u t : TaskId) (l : List Event) : Decidable (EnqueuedBehind u t l) := decidableSince l

/-- A task of the priority of the front, or a higher one, that is in the run queues is behind it. -/
lemma enqueuedBehind_of_front (h : Reachable step IsStart s) (hp : s.panicked = none)
    (hfront : s.front = some t) (hu : s.runnable u) (hut : u ≠ t)
    (hle : (s.tasks u).priority ≤ (s.tasks t).priority) :
    (s.tasks u).priority = (s.tasks t).priority ∧ EnqueuedBehind u t s.log := by
  have hr := abs_reached h
  obtain ⟨a, ht, hf⟩ := follows_of_reachable h
  have hf := hf hp
  have hpriority : ∀ v, v ∈ a.runnable → a.priority v = (s.tasks v).priority := fun v hv =>
    hf.priority v (hr.lt_of_alive (.inl (by simp [((hf.runnable v).mp hv).symm ▸ Option.some_ne_none _])))
  obtain ⟨hmem, hfirst⟩ := hf.first hr.placed (fun _ => hr.lt_of_alive) hfront
  have humem : u ∈ a.runnable := (hf.runnable u).mpr hu
  rcases hfirst u humem hut with hlt | ⟨heq, hlt⟩
  · rw [hpriority t hmem, hpriority u humem] at hlt
    exact absurd hle hlt.not_ge
  · rw [hpriority t hmem, hpriority u humem] at heq
    have hlabel : ∀ v e, e = .enqueued v ↔ ∃ x, Event.label e = some x ∧ x = .enqueue v := fun v e => by
      cases e <;> simp [Event.label]
    exact ⟨heq.symm, (since_filterMap (hlabel u) (hlabel t)).mp (ht.since_of_stamp_lt rfl hmem humem hlt)⟩

/-! ## The tasks ahead -/

/-- The task yields in this step: its poll invokes its own waker. -/
def Yields (s : Thread V) (t : TaskId) : Action V → Prop
  | .wake w _ => w = .task t ∧ s.stack.head? = some (.runTask t .polling)
  | _ => False

instance (s : Thread V) (t : TaskId) (a : Action V) : Decidable (s.Yields t a) :=
  match a with
  | .wake w _ => inferInstanceAs (Decidable (w = .task t ∧ s.stack.head? = some (.runTask t .polling)))
  | .go _ | .replace _ | .spawn _ | .abort _ | .handleResult _ | .handlePoll _ _ | .dropHandle _
  | .shutdown | .run | .blockOn | .pending | .ready _ | .finish | .fdNew _ _ _ _ | .fdDrop _
  | .pollWith _ _ _ | .closure _ | .foreignUpgrade _ | .foreignWrite _ | .foreignBlockOn _ =>
    inferInstanceAs (Decidable False)

/-- What has happened in a step. -/
def fresh (s s' : Thread V) : List Event := s'.log.take (s'.log.length - s.log.length)

/-- The other tasks of the same priority or a higher one that are in the run queues. -/
def rivals (s : Thread V) (t : TaskId) : List TaskId :=
  (List.range s.nTasks).filter fun u => u ≠ t ∧ s.runnable u ∧
    (s.tasks u).priority ≤ (s.tasks t).priority

/-- The tasks ahead that are left after a step: all that are neither polled nor aborted, as long as the
task is not polled. -/
def left (t : TaskId) (l : List Event) (ahead : List (TaskId × ExecId)) : List (TaskId × ExecId) :=
  if .polled t ∈ l then [] else ahead.filter fun r => .polled r.1 ∉ l ∧ .aborted r.1 ∉ l

/-- How the observer of the task follows a step.  It knows the tasks that were in the run queues when the
task has yielded and that have been neither polled nor aborted since, each with the executor of that
time. -/
def observeYield (t : TaskId) (s : Thread V) (a : Action V) (s' : Thread V)
    (ahead : List (TaskId × ExecId)) : List (TaskId × ExecId) :=
  left t (s.fresh s') ahead ++ if s.Yields t a then (s'.rivals t).map (·, s'.cur) else []

/-- A thread and what the observer knows. -/
abbrev Yielding (V : Type) := Thread V × List (TaskId × ExecId)

/-- What is known of the tasks ahead: they are in the run queues until the executor is replaced. -/
structure Waits (t : TaskId) (s : Thread V) (r : TaskId × ExecId) : Prop where
  ne : r.1 ≠ t
  lt : r.1 < s.nTasks
  self_lt : t < s.nTasks
  priority : (s.tasks r.1).priority ≤ (s.tasks t).priority
  cur : r.2 ≤ s.cur
  runnable : r.2 = s.cur → s.runnable r.1

/-- The events of a step of the scheduler. -/
lemma fresh_of_onward {l : List Event} (h : s.abs.Onward l s'.abs) : s.fresh s' = l := by
  have hlog : s'.log = l ++ s.log := h.log
  simp [fresh, hlog]

/-- A task ahead that is neither polled nor aborted stays ahead. -/
lemma Waits.onward {l : List Event} {r : TaskId × ExecId} (hw : Waits t s r) (h : s.abs.Onward l s'.abs)
    (hpolled : .polled r.1 ∉ l) (haborted : .aborted r.1 ∉ l) : Waits t s' r where
  ne := hw.ne
  lt := hw.lt.trans_le h.nTasks
  self_lt := hw.self_lt.trans_le h.nTasks
  priority := by
    have hr : (s'.tasks r.1).priority = (s.tasks r.1).priority := h.priority r.1 hw.lt
    have ht : (s'.tasks t).priority = (s.tasks t).priority := h.priority t hw.self_lt
    rw [hr, ht]
    exact hw.priority
  cur := hw.cur.trans h.cur
  runnable hcur := by
    have hcur' : s'.cur = s.cur := le_antisymm (hcur ▸ hw.cur) h.cur
    exact h.runnable r.1 hw.lt (hw.runnable (hcur.trans hcur')) hcur' hpolled haborted

/-- The tasks that are in the run queues when the task yields wait. -/
lemma waits_of_rivals {a : Action V} (h : Reachable step IsStart s) (hs : s.step a = some s')
    (hp : s'.panicked = none) (hy : s.Yields t a) (hu : u ∈ s'.rivals t) : Waits t s' (u, s'.cur) := by
  have hlt : t < s.nTasks := by
    obtain ⟨w, k, rfl⟩ : ∃ w k, a = .wake w k := by
      cases a <;> first | exact ⟨_, _, rfl⟩ | exact absurd hy id
    have hmem : Frame.runTask t .polling ∈ s.stack := List.mem_of_mem_head? hy.2
    exact (wf_of_reachable h).ids t (alive_of_running (List.mem_filterMap.mpr ⟨_, hmem, rfl⟩))
  obtain ⟨l, hl⟩ := onward_of_step h hs hp
  simp only [rivals, List.mem_filter, List.mem_range, decide_eq_true_eq] at hu
  obtain ⟨hlt', hne, hrun, hle⟩ := hu
  exact ⟨hne, hlt', hlt.trans_le hl.nTasks, hle, le_rfl, fun _ => hrun⟩

/-- In every run the tasks that the observer knows wait. -/
lemma waits_of_observed {p : Yielding V}
    (h : Reachable (observe step (observeYield t)) (fun p => p.1.IsStart ∧ p.2 = []) p)
    (hp : p.1.panicked = none) : ∀ r ∈ p.2, Waits t p.1 r := by
  refine h.invariant (P := fun p => p.1.panicked = none → ∀ r ∈ p.2, Waits t p.1 r) ?_ ?_ hp
  · rintro ⟨s, l⟩ ⟨-, rfl⟩ - r hr
    exact absurd hr List.not_mem_nil
  · rintro ⟨s, ahead⟩ a ⟨s', ahead'⟩ hreach ih - hstep hp' r hr
    obtain ⟨hs, hahead⟩ := observe_eq_some.mp hstep
    simp only at hs hahead hp' hr ⊢
    have hreach' := hreach.of_observe
    obtain ⟨l, hl⟩ := onward_of_step hreach' hs hp'
    rw [hahead, observeYield, fresh_of_onward hl] at hr
    rcases List.mem_append.mp hr with hr | hr
    · unfold left at hr
      split_ifs at hr with ht
      · exact absurd hr List.not_mem_nil
      · simp only [List.mem_filter, decide_eq_true_eq] at hr
        exact (ih (acts_of_step hs).1 r hr.1).onward hl hr.2.1 hr.2.2
    · split_ifs at hr with hy
      · obtain ⟨u, hu, rfl⟩ := List.mem_map.mp hr
        exact waits_of_rivals hreach' hs hp' hy hu
      · exact absurd hr List.not_mem_nil

/-- In every run, when a task is polled that has yielded: all tasks of its priority or a higher one that
were in the run queues then have been polled or aborted, exactly if none of those that have not is on an
executor that has been replaced since, or is of its priority and has been enqueued after it. -/
theorem yield_polls_others_iff {p : Yielding V}
    (h : Reachable (observe step (observeYield t)) (fun p => p.1.IsStart ∧ p.2 = []) p) {a : Action V}
    (hs : p.1.step a = some s') (hlog : s'.log = .polled t :: p.1.log) :
    p.2 = [] ↔ ∀ r ∈ p.2, r.2 = p.1.cur ∧ ((p.1.tasks r.1).priority = (p.1.tasks t).priority →
      ¬ EnqueuedBehind r.1 t p.1.log) := by
  obtain ⟨hn, hm⟩ := move_of_step hs
  obtain ⟨k, f, f', rest, -, -, -, hfront⟩ := hm.of_polled hlog
  constructor
  · intro hnil r hr
    rw [hnil] at hr
    exact absurd hr List.not_mem_nil
  · refine fun hkept => List.eq_nil_iff_forall_not_mem.mpr fun r hr => ?_
    have hw := waits_of_observed h hn r hr
    obtain ⟨hcur, hbehind⟩ := hkept r hr
    obtain ⟨heq, hlater⟩ := enqueuedBehind_of_front h.of_observe hn hfront (hw.runnable hcur) hw.ne hw.priority
    exact hbehind heq hlater

/-- A task yields to two others and is polled after them. -/
theorem yield_polls_others_of_two : ∃ (p : Yielding Unit) (s' : Thread Unit),
    Reachable (observe step (observeYield 0)) (fun p => p.1.IsStart ∧ p.2 = []) p ∧
      p.1.step (.go (.ok [])) = some s' ∧
      s'.log = .polled 0 :: .polled 2 :: .polled 1 :: .woken 0 :: .enqueued 0 :: .polled 0 ::
        .enqueued 2 :: .spawned 2 :: .enqueued 1 :: .spawned 1 :: .enqueued 0 :: .spawned 0 :: [] ∧
      p.2 = [] := by
  obtain ⟨p, hp, h⟩ := exists_observed (V := Unit) (observeYield 0) [] (fun _ _ => True)
    [.spawn .normal, .spawn .normal, .spawn .normal, .run, .go (.ok []), .wake (.task 0) (.ok []),
      .pending, .go (.ok []), .go (.ok []), .go (.ok []), .go (.ok []), .pending, .go (.ok []),
      .go (.ok []), .go (.ok []), .go (.ok []), .pending, .go (.ok []), .go (.ok []), .go (.ok [])]
    (fun p => decide (p.1.log = [.polled 2, .polled 1, .woken 0, .enqueued 0, .polled 0, .enqueued 2,
        .spawned 2, .enqueued 1, .spawned 1, .enqueued 0, .spawned 0]) &&
      decide (∀ r ∈ p.2, r.2 = p.1.cur ∧ ((p.1.tasks r.1).priority = (p.1.tasks 0).priority →
        ¬ EnqueuedBehind r.1 0 p.1.log)) &&
      (p.1.step (.go (.ok []))).any fun s' : Thread Unit => decide (s'.log = .polled 0 :: p.1.log))
    (by decide)
  simp only [Bool.and_eq_true, decide_eq_true_eq] at h
  obtain ⟨⟨hlog, hkept⟩, hstep⟩ := h
  obtain ⟨s', hs, hlog'⟩ := (Option.any_eq_true _ _).mp hstep
  have hpolled := of_decide_eq_true hlog'
  exact ⟨p, s', hp, hs, hpolled.trans (by rw [hlog]), (yield_polls_others_iff hp hs hpolled).mpr hkept⟩

/-- The first of the two others wakes the second one, which is in its run queue already and moves behind
the task that has yielded. -/
theorem yield_polled_before_other : ∃ (p : Yielding Unit) (s' : Thread Unit),
    Reachable (observe step (observeYield 0)) (fun p => p.1.IsStart ∧ p.2 = []) p ∧
      p.1.step (.go (.ok [])) = some s' ∧ s'.log = .polled 0 :: p.1.log ∧ p.2 = [(2, p.1.cur)] ∧
      .polled 2 ∉ s'.log ∧ .aborted 2 ∉ s'.log := by
  obtain ⟨p, hp, h⟩ := exists_observed (V := Unit) (observeYield 0) [] (fun _ _ => True)
    [.spawn .normal, .spawn .normal, .spawn .normal, .run, .go (.ok []), .wake (.task 0) (.ok []),
      .pending, .go (.ok []), .go (.ok []), .go (.ok []), .go (.ok []), .wake (.task 2) (.ok []),
      .pending, .go (.ok []), .go (.ok []), .go (.ok [])]
    (fun p => decide (p.2 = [(2, p.1.cur)]) && (p.1.step (.go (.ok []))).any fun s' : Thread Unit =>
      decide (s'.log = .polled 0 :: p.1.log ∧ .polled 2 ∉ s'.log ∧ .aborted 2 ∉ s'.log)) (by decide)
  simp only [Bool.and_eq_true, decide_eq_true_eq] at h
  obtain ⟨hahead, hstep⟩ := h
  obtain ⟨s', hs, h⟩ := (Option.any_eq_true _ _).mp hstep
  obtain ⟨hlog, hpolled, haborted⟩ := of_decide_eq_true h
  exact ⟨p, s', hp, hs, hlog, hahead, hpolled, haborted⟩

end Thread

end Epox

import Epox.Foundation.Agenda
import Epox.Scheduler.Refinement
import Mathlib.Order.Basic

/-!
# The order of polls

The queues of the executor implement an agenda: each run queue is sorted by the time at which its tasks
were last enqueued, since an enqueue moves a task to the back, and the queues are popped in the order of
the priorities.  So the history of a thread is a run of an agenda.
-/

namespace Epox

/-- The position of a priority in the source, which derives its order from it. -/
def Priority.index : Priority → ℕ
  | .high => 0
  | .normal => 1
  | .low => 2

/-- Different priorities have different positions. -/
lemma Priority.index_injective : Function.Injective Priority.index := by
  intro p q h
  cases p <;> cases q <;> first | rfl | cases h

/-- `High` comes before `Normal` and `Normal` before `Low`. -/
instance : LinearOrder Priority := LinearOrder.lift' Priority.index Priority.index_injective

/-- Each priority has a run queue of its own. -/
lemma runq_injective : Function.Injective runq := by
  intro p q h
  cases p <;> cases q <;> first | rfl | cases h

/-- What an event means for the agenda. -/
def Event.label : Event → Option (Agenda.Label TaskId)
  | .spawned t => some (.spawn t)
  | .enqueued t => some (.enqueue t)
  | .aborted t => some (.remove t)
  | .polled t => some (.select t)
  | _ => none

namespace Sched

variable {σ σ' : Sched} {a : Agenda TaskId Priority}

/-! ## The agenda of a scheduler -/

/-- The agenda says which tasks are runnable, and in which order they are in their run queues. -/
structure Follows (σ : Sched) (a : Agenda TaskId Priority) : Prop where
  known : ∀ t, t ∈ a.known ↔ t < σ.nTasks
  priority : ∀ t < σ.nTasks, a.priority t = σ.priority t
  runnable : ∀ t, t ∈ a.runnable ↔ σ.runnable t
  stamp_lt : ∀ t ∈ a.runnable, a.stamp t < a.now
  sorted : ∀ p, (σ.queues.list (σ.cur, runq p)).Pairwise fun t u => a.stamp t < a.stamp u

/-- Only the queues, the priorities and the number of tasks matter. -/
lemma Follows.congr (h : σ.Follows a) (hcur : σ'.cur = σ.cur) (hqueues : σ'.queues = σ.queues)
    (hpriority : σ'.priority = σ.priority) (hn : σ'.nTasks = σ.nTasks) : σ'.Follows a where
  known t := hn ▸ h.known t
  priority t ht := hpriority ▸ h.priority t (hn ▸ ht)
  runnable t := by
    rw [h.runnable, Sched.runnable, Sched.runnable, hqueues, hcur, hpriority]
  stamp_lt := h.stamp_lt
  sorted p := by
    rw [hqueues, hcur]
    exact h.sorted p

/-- A task in a run queue is runnable. -/
lemma Placed.runnable_of_mem (h : σ.Placed) {t : TaskId} {p : Priority}
    (ht : t ∈ σ.queues.list (σ.cur, runq p)) : σ.runnable t ∧ p = σ.priority t := by
  have hhome := (σ.queues.mem_list _ t).mp ht
  obtain ⟨-, -, hq⟩ := (h t).2 _ _ hhome
  obtain rfl : p = σ.priority t := runq_injective (hq.resolve_left (runq_ne_sleepq p))
  exact ⟨hhome, rfl⟩

/-- A task leaves its queue. -/
lemma Follows.release (h : σ.Follows a) (t : TaskId) :
    ({ σ with queues := σ.queues.release t } : Sched).Follows
      { a with runnable := a.runnable \ {t} } where
  known := h.known
  priority := h.priority
  runnable u := by
    simp only [Sched.runnable, Family.home_release, Set.mem_sdiff, Set.mem_singleton_iff, h.runnable]
    by_cases hu : u = t <;> simp [hu]
  stamp_lt u hu := h.stamp_lt u hu.1
  sorted p := (h.sorted p).sublist List.erase_sublist

/-- A task is moved to the back of its run queue. -/
lemma Follows.push (h : σ.Follows a) (hp : σ.Placed) (t : TaskId) :
    ({ σ with queues := σ.queues.push (σ.cur, runq (σ.priority t)) t } : Sched).Follows
      { a with
        runnable := insert t a.runnable
        stamp := Function.update a.stamp t a.now
        now := a.now + 1 } := by
  have hstamp : ∀ u ∈ a.runnable, u ≠ t →
      Function.update a.stamp t a.now u < a.now := fun u hu hut => by
    simpa [hut] using h.stamp_lt u hu
  have hsorted : ∀ p, ((σ.queues.release t).list (σ.cur, runq p)).Pairwise fun u v =>
      Function.update a.stamp t a.now u < Function.update a.stamp t a.now v := by
    intro p
    have hnot : ∀ u ∈ (σ.queues.release t).list (σ.cur, runq p), u ≠ t := by
      rintro u hu rfl
      simp [Family.mem_list] at hu
    refine ((h.sorted p).sublist List.erase_sublist).imp_of_mem fun hu hv huv => ?_
    simpa [hnot _ hu, hnot _ hv] using huv
  refine ⟨h.known, h.priority, fun u => ?_, fun u hu => ?_, fun p => ?_⟩
  · simp only [Sched.runnable, Family.home_push, Set.mem_insert_iff, h.runnable]
    by_cases hu : u = t <;> simp [hu]
  · by_cases hut : u = t
    · simp [hut]
    · exact (hstamp u (hu.resolve_left hut) hut).trans (Nat.lt_succ_self _)
  · by_cases hpt : p = σ.priority t
    · subst hpt
      rw [Family.list_push_self, List.pairwise_append]
      refine ⟨hsorted _, List.pairwise_singleton _ _, fun u hu v hv => ?_⟩
      obtain rfl : v = t := by simpa using hv
      have hmem : u ∈ σ.queues.list (σ.cur, runq (σ.priority v)) := List.mem_of_mem_erase hu
      have huv : u ≠ v := by
        rintro rfl
        simp [Family.mem_list] at hu
      simpa using hstamp u ((h.runnable u).mpr (hp.runnable_of_mem hmem).1) huv
    · rw [Family.list_push_of_ne t (by simpa using runq_injective.ne hpt)]
      exact hsorted p

/-- The front of the run queues is the front of one of them, and those before it are empty. -/
lemma exists_of_front {t : TaskId} (h : σ.front = some t) :
    ∃ p, (σ.queues.list (σ.cur, runq p)).head? = some t ∧
      ∀ q < p, σ.queues.list (σ.cur, runq q) = [] := by
  simp only [front, Option.or_eq_some_iff, List.head?_eq_none_iff] at h
  rcases h with h | ⟨h₁, h | ⟨h₂, h⟩⟩
  · refine ⟨.high, h, fun q hq => ?_⟩
    cases q <;> exact absurd hq (by decide)
  · refine ⟨.normal, h, fun q hq => ?_⟩
    cases q with
    | high => exact h₁
    | normal | low => exact absurd hq (by decide)
  · refine ⟨.low, h, fun q hq => ?_⟩
    cases q with
    | high => exact h₁
    | normal => exact h₂
    | low => exact absurd hq (by decide)

/-- The task that is taken first comes first in the agenda. -/
lemma Follows.first (h : σ.Follows a) (hp : σ.Placed) (hr : ∀ t, σ.alive t → t < σ.nTasks)
    {t : TaskId} (hfront : σ.front = some t) : a.First t := by
  have hpriority : ∀ u, σ.runnable u → a.priority u = σ.priority u := fun u hu =>
    h.priority u (hr u (.inl (by simp [hu.symm ▸ Option.some_ne_none _])))
  obtain ⟨p, hhead, hbefore⟩ := exists_of_front hfront
  obtain ⟨ht, rfl⟩ := hp.runnable_of_mem (List.mem_of_mem_head? hhead)
  refine ⟨(h.runnable t).mpr ht, fun u hu hut => ?_⟩
  have hur := (h.runnable u).mp hu
  have hmem : u ∈ σ.queues.list (σ.cur, runq (σ.priority u)) := (σ.queues.mem_list _ u).mpr hur
  rw [hpriority t ht, hpriority u hur]
  rcases lt_trichotomy (σ.priority t) (σ.priority u) with hlt | heq | hgt
  · exact .inl hlt
  · refine .inr ⟨heq, ?_⟩
    obtain ⟨rest, hlist⟩ : ∃ rest, σ.queues.list (σ.cur, runq (σ.priority t)) = t :: rest :=
      List.head?_eq_some_iff.mp hhead
    have hsorted := h.sorted (σ.priority t)
    rw [hlist, List.pairwise_cons] at hsorted
    rw [← heq, hlist] at hmem
    exact hsorted.1 u ((List.mem_cons.mp hmem).resolve_left hut)
  · rw [hbefore _ hgt] at hmem
    exact absurd hmem (List.not_mem_nil)

/-- The labels of the history. -/
def labels (σ : Sched) : List (Agenda.Label TaskId) := σ.log.filterMap Event.label

/-- A new task is known and in no queue. -/
lemma Follows.spawn (h : σ.Follows a) (hr : ∀ t, σ.alive t → t < σ.nTasks) (p : Priority) :
    ({ σ with
        exec := Function.update σ.exec σ.nTasks σ.cur
        priority := Function.update σ.priority σ.nTasks p
        nTasks := σ.nTasks + 1 } : Sched).Follows
      { a with
        known := insert σ.nTasks a.known
        priority := Function.update a.priority σ.nTasks p } where
  known t := by
    simp only [Set.mem_insert_iff, h.known]
    exact (Nat.lt_succ_iff_lt_or_eq.trans or_comm).symm
  priority t ht := by
    by_cases hn : t = σ.nTasks
    · simp [hn]
    · simpa [hn] using h.priority t (lt_of_le_of_ne (Nat.le_of_lt_succ ht) hn)
  runnable t := by
    rw [h.runnable]
    by_cases hn : t = σ.nTasks
    · have hhome : σ.queues.home t = none := by
        by_contra hq
        exact (hr t (.inl hq)).ne hn
      simp [Sched.runnable, hhome]
    · simp [Sched.runnable, hn]
  stamp_lt := h.stamp_lt
  sorted := h.sorted

/-- A new task is in no queue, so it is placed wherever it may be put. -/
lemma Placed.spawn (h : σ.Placed) (hr : ∀ t, σ.alive t → t < σ.nTasks) (p : Priority) :
    ({ σ with
        exec := Function.update σ.exec σ.nTasks σ.cur
        priority := Function.update σ.priority σ.nTasks p
        nTasks := σ.nTasks + 1 } : Sched).Placed := by
  intro t
  by_cases hn : t = σ.nTasks
  · have hhome : σ.queues.home t = none := by
      by_contra hq
      exact (hr t (.inl hq)).ne hn
    simp [hn, hn ▸ hhome]
  · simpa [hn] using h t

/-- The agenda goes on as the scheduler does. -/
lemma Step.follows (hs : Step σ σ') (hr : σ.Reached) (hcr : σ'.crashed = false)
    (ht : Agenda.Trace Agenda.initial σ.labels a) (h : σ.Follows a) :
    ∃ a', Agenda.Trace Agenda.initial σ'.labels a' ∧ σ'.Follows a' := by
  have hlt : ∀ t, σ.alive t → t < σ.nTasks := fun t => hr.lt_of_alive
  cases hs with
  | spawn p =>
    have hnew : σ.nTasks ∉ a.known := by simp [h.known]
    refine ⟨_, (ht.visible (.spawn a σ.nTasks p hnew)).visible
      (.enqueue _ σ.nTasks (Set.mem_insert _ _)), ?_⟩
    have hpush := (h.spawn hlt p).push (hr.placed.spawn hlt p) σ.nTasks
    exact hpush.congr rfl (by simp) rfl rfl
  | enqueue t halive hc | receive t r hpipe halive hc =>
    refine ⟨_, ht.visible (.enqueue a t ((h.known t).mpr (hlt t halive))), ?_⟩
    exact (h.push hr.placed t).congr rfl rfl rfl rfl
  | select t hfront hrun =>
    refine ⟨_, ht.visible (.select a t (h.first hr.placed hlt hfront)), ?_⟩
    exact (h.release t).congr rfl rfl rfl rfl
  | abort t halive =>
    exact ⟨_, ht.visible (.remove a t), (h.release t).congr rfl rfl rfl rfl⟩
  | sleep t r hpolls hq =>
    -- The sleep queue does not count, and the task was in no run queue.
    refine ⟨a, ht, h.known, h.priority, fun u => ?_, h.stamp_lt, fun p => ?_⟩
    · rw [h.runnable]
      by_cases hu : u = t
      · simp [Sched.runnable, hu, hq, (runq_ne_sleepq _).symm]
      · simp [Sched.runnable, Family.home_push, hu]
    · have hne : (σ.cur, runq p) ≠ (σ.cur, QueueName.sleepq) := by simp
      rw [Family.list_push_of_ne t hne]
      exact (h.sorted p).sublist List.erase_sublist
  | discard t q hq hcur =>
    refine ⟨a, ht, h.known, h.priority, fun u => ?_, h.stamp_lt, fun p => ?_⟩
    · rw [h.runnable]
      by_cases hu : u = t
      · have hne : q ≠ (σ.cur, runq (σ.priority t)) := fun he => hcur (by rw [he])
        simp [Sched.runnable, hu, hq, hne]
      · simp [Sched.runnable, Family.home_release, hu]
    · exact (h.sorted p).sublist List.erase_sublist
  | replace =>
    have hempty : ∀ q, σ.queues.list (σ.cur + 1, q) = [] := fun q =>
      List.eq_nil_iff_forall_not_mem.mpr fun t hm =>
        absurd ((hr.placed t).2 _ _ ((σ.queues.mem_list _ t).mp hm)).2.1 (Nat.not_succ_le_self _)
    refine ⟨_, ht.silent (.clear a), h.known, h.priority, fun u => ?_, ?_, fun p => ?_⟩
    · have : ∀ q, σ.queues.home u ≠ some (σ.cur + 1, q) := fun q hq =>
        List.not_mem_nil (hempty q ▸ (σ.queues.mem_list _ u).mpr hq)
      simp [Sched.runnable, this]
    · simp
    · simp [hempty]
  | note e he hwoken =>
    have hlabel : e.label = none := by cases e <;> first | rfl | cases he
    refine ⟨a, ?_, h.congr rfl rfl rfl rfl⟩
    simpa [labels, hlabel] using ht
  | crash t => simp at hcr
  | keep | ready | complete | write | drain | refs => exact ⟨a, ht, h.congr rfl rfl rfl rfl⟩

/-- What crashed stays crashed. -/
lemma Step.crashed (hs : Step σ σ') (h : σ'.crashed = false) : σ.crashed = false := by
  cases hs with
  | crash t => simp at h
  | _ => exact h

/-- The agenda goes on through any number of moves. -/
lemma Reached.follows (hr : σ.Reached) (hs : Relation.ReflTransGen Step σ σ')
    (hcr : σ'.crashed = false) (h : ∃ a, Agenda.Trace Agenda.initial σ.labels a ∧ σ.Follows a) :
    ∃ a, Agenda.Trace Agenda.initial σ'.labels a ∧ σ'.Follows a := by
  induction hs with
  | refl => exact h
  | tail hs hstep ih =>
    obtain ⟨a, ht, ha⟩ := ih (hstep.crashed hcr)
    exact hstep.follows (hr.trans hs) hcr ht ha

end Sched

namespace Thread

variable {V : Type} {s s' : Thread V}

/-- A step ends in a state that the scheduler reaches without a crash, or with the history of one. -/
lemma Move.exists_uncrashed {a : Action V} (hm : Move s a s') (hwf : s.Wf) (hn : s.panicked = none) :
    ∃ s₁ : Thread V, s₁.panicked = none ∧ s₁.log = s'.log ∧
      Relation.ReflTransGen Sched.Step s.abs s₁.abs ∧ (s'.panicked = none → s₁ = s') := by
  have key : s'.panicked = none → ∃ s₁ : Thread V, s₁.panicked = none ∧ s₁.log = s'.log ∧
      Relation.ReflTransGen Sched.Step s.abs s₁.abs ∧ (s'.panicked = none → s₁ = s') := fun hp =>
    ⟨s', hp, rfl, hm.refines hwf, fun _ => rfl⟩
  cases hm with
  | @crash a s₁ p heff hp =>
    exact ⟨s₁, heff.steady.panicked.trans hn, rfl, heff.refines hwf, fun h => by simp [Thread.panic] at h⟩
  | selectCrash hstack hf hfront hb => exact ⟨s, hn, rfl, .refl, fun h => by simp [Thread.panic] at h⟩
  | stay hu heff => exact key (heff.steady.panicked.trans hn)
  | jump hstack hj => exact key (hj.effects.steady.panicked.trans hn)
  | repoll hstack hpc heff => exact key (heff.steady.panicked.trans hn)
  | spawn hu => exact key (by rw [Thread.spawn, enqueue_of_not_completed (by simp)]; exact hn)
  | fdNew hu => exact key ((fdNew_steady s _ _ _ _).panicked.trans hn)
  | fdDrop hu hlive => exact key ((fdDrop_steady s _).panicked.trans hn)
  | foreignWrite => exact key ((foreignWrite_effects s _).steady.panicked.trans hn)
  | foreignBlockOn => exact key ((foreignBlockOn_effects s _).steady.panicked.trans hn)
  | _ => exact key hn

/-- The history of every reachable thread is a run of an agenda, whose runnable tasks are those in the
run queues as long as the thread has not panicked. -/
lemma follows_of_reachable (h : Reachable step IsStart s) :
    ∃ a, Agenda.Trace Agenda.initial s.abs.labels a ∧ (s.panicked = none → s.abs.Follows a) := by
  induction h with
  | init h =>
    rw [h.abs]
    refine ⟨Agenda.initial, .nil, fun _ => ?_⟩
    constructor <;>
      simp [Agenda.initial, Sched.initial, Sched.runnable]
  | @next s s' a h _ hs ih =>
    obtain ⟨hn, hm⟩ := move_of_step hs
    have hwf := wf_of_reachable h
    obtain ⟨b, ht, hb⟩ := ih
    obtain ⟨s₁, hn₁, hlog, hrun, heq⟩ := hm.exists_uncrashed hwf hn
    obtain ⟨c, hc, hf⟩ := (abs_reached h).follows hrun (by simp [abs, hn₁]) ⟨b, ht, hb hn⟩
    refine ⟨c, ?_, fun hp => heq hp ▸ hf⟩
    have hlabels : s'.abs.labels = s₁.abs.labels :=
      congrArg (List.filterMap Event.label) (show s'.log = s₁.log from hlog.symm)
    rwa [hlabels]

/-- Wakes only record wakes. -/
lemma Effects.log_ne (h : Effects s s') {e : Event} (he : e.isWake = false) :
    s'.log ≠ e :: s.log := by
  intro hlog
  obtain ⟨l, hl, hwake⟩ := h.untouched.log
  obtain rfl : l = [e] := List.append_cancel_right (hl.symm.trans hlog)
  simp [he] at hwake

/-- A poll of a task only begins when a loop takes the task that is the front of the run queues. -/
lemma Move.of_polled {a : Action V} (hm : Move s a s') {t : TaskId}
    (hlog : s'.log = .polled t :: s.log) : ∃ k f f' rest, a = .go k ∧ s.stack = f :: rest ∧
      f.loop = some f' ∧ s.front = some t := by
  have hself : s.log ≠ .polled t :: s.log := (List.cons_ne_self _ _).symm
  cases hm with
  | select hstack hf hfront hb =>
    obtain rfl := Event.polled.inj (List.cons.inj hlog).1
    exact ⟨_, _, _, _, rfl, hstack, hf, hfront⟩
  | stay hu heff | crash heff hp => exact absurd hlog (heff.log_ne rfl)
  | jump hstack hj => exact absurd hlog (hj.effects.log_ne rfl)
  | spawn hu =>
    rw [Thread.spawn, enqueue_of_not_completed (by simp)] at hlog
    exact absurd (List.cons.inj hlog).1 (by simp)
  | @fdNew raw events fcntl ctl hu =>
    rcases fdNew_cases s raw events fcntl ctl with hs | ⟨fd, interest, -, -, hs | hs⟩ <;>
      rw [hs] at hlog
    · exact absurd hlog hself
    · exact absurd hlog hself
    · exact absurd (List.cons.inj hlog).1 (by simp)
  | foreignWrite => exact absurd hlog ((foreignWrite_effects s _).log_ne rfl)
  | foreignBlockOn => exact absurd hlog ((foreignBlockOn_effects s _).log_ne rfl)
  | repoll | ready | complete | discard | close | abort | blockOn | fdDrop =>
    exact absurd (List.cons.inj hlog).1 (by simp)
  | _ => exact absurd hlog hself

/-- The polls of a thread are the selections of an agenda: every task has a fixed priority; spawning it
and every delivered wake before it has completed stamp it with the current time, aborting it takes it
off the agenda, and the task that is polled next is the first one on it.  So every poll is for an
enqueue that no other poll has used, and no task of lower priority is polled while one of higher
priority is in a run queue. -/
theorem polls_refine_agenda (h : Reachable step IsStart s) :
    (∃ a : Agenda TaskId Priority,
      Agenda.Trace Agenda.initial (s.log.filterMap Event.label) a ∧
      (s.panicked = none → (∀ t, t ∈ a.runnable ↔ s.runnable t) ∧
        ∀ t < s.nTasks, a.priority t = (s.tasks t).priority)) ∧
    Agenda.SelectsEnqueued (s.log.filterMap Event.label) ∧
    ∀ a s' t u, s.step a = some s' → s'.log = .polled t :: s.log → s.runnable u →
      (s.tasks t).priority ≤ (s.tasks u).priority := by
  obtain ⟨b, ht, hf⟩ := follows_of_reachable h
  refine ⟨⟨b, ht, fun hp => ⟨(hf hp).runnable, (hf hp).priority⟩⟩, ht.selectsEnqueued rfl, ?_⟩
  intro a s' t u hs hlog hu
  obtain ⟨hn, hm⟩ := move_of_step hs
  obtain ⟨k, f, f', rest, -, -, -, hfront⟩ := hm.of_polled hlog
  obtain ⟨p, hhead, hbefore⟩ := Sched.exists_of_front (σ := s.abs) hfront
  obtain ⟨-, rfl⟩ := (abs_reached h).placed.runnable_of_mem (List.mem_of_mem_head? hhead)
  by_contra hlt
  have hmem : u ∈ s.queues.list (s.cur, runq (s.tasks u).priority) := (s.queues.mem_list _ u).mpr hu
  exact List.not_mem_nil (hbefore _ (lt_of_not_ge hlt) ▸ hmem)

/-- A task of low priority that was spawned first waits for one of high priority. -/
theorem polls_refine_agenda_of_two : ∃ s : Thread Unit, Reachable step IsStart s ∧
    ∃ a : Agenda TaskId Priority, Agenda.Trace Agenda.initial
      [.select 1, .enqueue 1, .spawn 1, .enqueue 0, .spawn 0] a ∧ 0 ∈ a.runnable ∧
        a.priority 0 = .low := by
  obtain ⟨s, hs, h⟩ := exists_reachable (V := Unit)
    [.spawn .low, .spawn .high, .run, .go (.ok [])]
    (fun s => decide (s.panicked = none ∧ s.nTasks = 2 ∧ (s.tasks 0).priority = .low ∧
      s.queues.home 0 = some (s.cur, .runqLow) ∧ s.log.filterMap Event.label =
        [.select 1, .enqueue 1, .spawn 1, .enqueue 0, .spawn 0])) (by decide)
  obtain ⟨hp, hn, hpriority, hhome, hlog⟩ := of_decide_eq_true h
  obtain ⟨⟨a, ht, ha⟩, -, -⟩ := polls_refine_agenda hs
  refine ⟨s, hs, a, hlog ▸ ht, ?_, ?_⟩
  · exact ((ha hp).1 0).mpr (by rw [runnable, hhome, hpriority]; rfl)
  · exact ((ha hp).2 0 (by simp [hn])).trans hpriority

end Thread

end Epox

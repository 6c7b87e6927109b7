import Epox.Executor.Yielding
import Epox.Foundation.Progress

/-!
# Turns

How long a task waits in its run queue.  Since it was last enqueued, no task of lower priority has been
polled, and every other task of its priority at most once, if it was in the run queue first
(`overtaken_at_most_once`).  So a task is polled in every endless run in which polls go on and those of tasks
of higher priority do not (`runnable_task_polled`), unless it is woken again, which moves it to the back of
its queue.
-/

namespace Epox

namespace Thread

variable {V : Type} {s s' : Thread V} {t u : TaskId}

/-! ## The history of a wait -/

/-- The tasks whose polls have begun since the latest enqueue of the task. -/
def pollsSince (t : TaskId) : List Event → List TaskId
  | [] => []
  | .enqueued u :: h => if u = t then [] else pollsSince t h
  | .polled u :: h => u :: pollsSince t h
  | _ :: h => pollsSince t h

/-- What had happened before the latest enqueue of the task. -/
def beforeEnqueue (t : TaskId) : List Event → List Event
  | [] => []
  | .enqueued u :: h => if u = t then h else beforeEnqueue t h
  | _ :: h => beforeEnqueue t h

/-- The task has been enqueued, and neither polled nor aborted since. -/
def EnqueuedBefore (u : TaskId) : List Event → Prop :=
  Since (· = .enqueued u) fun e => e = .polled u ∨ e = .aborted u

/-- The tasks that have been enqueued. -/
def enqueuedTasks (h : List Event) : List TaskId :=
  h.filterMap fun
    | .enqueued u => some u
    | _ => none

/-- The labels of a wait. -/
lemma labels_of_wait (t : TaskId) (h : List Event) :
    Agenda.selected (Agenda.recent t (h.filterMap Event.label)) = pollsSince t h ∧
      Agenda.earlier t (h.filterMap Event.label) = (beforeEnqueue t h).filterMap Event.label := by
  induction h with
  | nil => exact ⟨rfl, rfl⟩
  | cons e h ih =>
    cases e with
    | enqueued u =>
      by_cases hu : u = t
      · simp [Event.label, pollsSince, beforeEnqueue, hu]
      · simpa [Event.label, pollsSince, beforeEnqueue, hu, Agenda.selected] using ih
    | spawned u | aborted u => simpa [Event.label, pollsSince, beforeEnqueue, Agenda.selected] using ih
    | polled u =>
      simpa [Event.label, pollsSince, beforeEnqueue, Agenda.selected] using ih
    | _ => exact ih

/-- What the labels say of an enqueue. -/
lemma enqueued_labels_iff {h : List Event} :
    Agenda.Enqueued u (h.filterMap Event.label) ↔ EnqueuedBefore u h := by
  refine since_filterMap (fun e => ?_) fun e => ?_ <;> cases e <;> simp [Event.label]

/-- A task that is waiting for its turn has been enqueued. -/
lemma mem_enqueuedTasks {h : List Event} (hu : EnqueuedBefore u h) : u ∈ enqueuedTasks h := by
  induction h with
  | nil => exact absurd hu id
  | cons e h ih =>
    rcases hu with rfl | ⟨-, hu⟩
    · simp [enqueuedTasks]
    · have hmem := ih hu
      unfold enqueuedTasks at hmem ⊢
      rw [List.filterMap_cons]
      split
      · exact hmem
      · exact List.mem_cons_of_mem _ hmem

/-- As long as a task is not enqueued again, its wait goes on. -/
lemma wait_append {l : List Event} (hl : .enqueued t ∉ l) (h : List Event) :
    pollsSince t (l ++ h) = (pollsSince t l) ++ pollsSince t h ∧
      beforeEnqueue t (l ++ h) = beforeEnqueue t h := by
  induction l with
  | nil => exact ⟨rfl, rfl⟩
  | cons e l ih =>
    rw [List.mem_cons, not_or] at hl
    have hrest := ih hl.2
    cases e with
    | enqueued u =>
      have hu : u ≠ t := fun hut => hl.1 (by rw [hut])
      simpa [pollsSince, beforeEnqueue, hu] using hrest
    | _ => simpa [pollsSince, beforeEnqueue] using hrest

/-- Who is polled while a task waits. -/
lemma mem_pollsSince {l : List Event} (hl : .enqueued t ∉ l) (hu : .polled u ∈ l) : u ∈ pollsSince t l := by
  induction l with
  | nil => exact absurd hu List.not_mem_nil
  | cons e l ih =>
    rw [List.mem_cons, not_or] at hl
    rcases List.mem_cons.mp hu with rfl | hu
    · simp [pollsSince]
    · have hmem := ih hl.2 hu
      cases e with
      | enqueued v =>
        have hv : v ≠ t := fun hvt => hl.1 (by rw [hvt])
        simpa [pollsSince, hv] using hmem
      | polled v => exact List.mem_cons_of_mem _ hmem
      | _ => exact hmem

/-! ## Bounded waiting -/

/-- The tasks that have been polled while a task waits. -/
lemma overtaken_of_reachable (h : Reachable step IsStart s) (hp : s.panicked = none) (ht : s.runnable t) :
    t ∉ pollsSince t s.log ∧
      (∀ u ∈ pollsSince t s.log, u < s.nTasks ∧ (s.tasks u).priority ≤ (s.tasks t).priority ∧
        ((s.tasks u).priority = (s.tasks t).priority → EnqueuedBefore u (beforeEnqueue t s.log))) ∧
      ((pollsSince t s.log).filter fun u => (s.tasks u).priority = (s.tasks t).priority).Nodup := by
  obtain ⟨a, htrace, hf⟩ := follows_of_reachable h
  have hf := hf hp
  have hmem : t ∈ a.runnable := (hf.runnable t).mpr ht
  have hover := htrace.overtaken rfl hmem
  obtain ⟨hrunnable, hselected⟩ := htrace.known rfl
  obtain ⟨hpolls, hbefore⟩ := labels_of_wait t s.log
  have hlt : ∀ u ∈ pollsSince t s.log, u < s.nTasks := fun u hu =>
    (hf.known u).mp (hselected u (Agenda.mem_selected_of_recent (hpolls ▸ hu)))
  have hpriority : ∀ u < s.nTasks, a.priority u = (s.tasks u).priority := hf.priority
  have hself := hpriority t ((hf.known t).mp (hrunnable hmem))
  refine ⟨hpolls ▸ hover.self, fun u hu => ⟨hlt u hu, ?_, fun heq => ?_⟩, ?_⟩
  · rw [← hpriority u (hlt u hu), ← hself]
    exact hover.le u (hpolls ▸ hu)
  · rw [← hpriority u (hlt u hu), ← hself] at heq
    have henq := hover.earlier u (hpolls ▸ hu) heq
    rw [Sched.labels] at henq
    exact enqueued_labels_iff.mp (hbefore ▸ henq)
  · have hnodup := hover.nodup
    rw [Sched.labels] at hnodup
    rw [show s.abs.log = s.log from rfl, hpolls] at hnodup
    rw [List.filter_congr fun u hu => by rw [hpriority u (hlt u hu), hself]] at hnodup
    convert hnodup

/-- While a task is runnable, from its latest enqueue on, no task of lower priority is polled; every other
task of its priority is polled at most once, and only if it was enqueued before; so there are fewer such
polls than tasks. -/
theorem overtaken_at_most_once (h : Reachable step IsStart s) (hp : s.panicked = none) (ht : s.runnable t) :
    (∀ u ∈ pollsSince t s.log, u ≠ t ∧ (s.tasks u).priority ≤ (s.tasks t).priority ∧
        ((s.tasks u).priority = (s.tasks t).priority → EnqueuedBefore u (beforeEnqueue t s.log))) ∧
      ((pollsSince t s.log).filter fun u => (s.tasks u).priority = (s.tasks t).priority).Nodup ∧
        ((pollsSince t s.log).filter fun u => (s.tasks u).priority = (s.tasks t).priority).length <
          s.nTasks := by
  obtain ⟨hself, hpolls, hnodup⟩ := overtaken_of_reachable h hp ht
  refine ⟨fun u hu => ⟨fun hut => hself (hut ▸ hu), (hpolls u hu).2⟩, hnodup, ?_⟩
  have hlt : t < s.nTasks := (wf_of_reachable h).ids t (alive_of_home ht)
  have hall : (t :: (pollsSince t s.log).filter fun u => (s.tasks u).priority = (s.tasks t).priority) ⊆
      List.range s.nTasks := by
    intro u hu
    rcases List.mem_cons.mp hu with rfl | hu
    · exact List.mem_range.mpr hlt
    · exact List.mem_range.mpr (hpolls u (List.mem_filter.mp hu).1).1
  have hcons := List.nodup_cons.mpr ⟨fun hmem => hself (List.mem_filter.mp hmem).1, hnodup⟩
  have hle := (List.subperm_of_subset hcons hall).length_le
  rwa [List.length_cons, List.length_range] at hle

/-- The first of three tasks has been polled, and the third one waits. -/
theorem overtaken_at_most_once_of_three : ∃ s : Thread Unit, Reachable step IsStart s ∧ s.runnable 2 ∧
    pollsSince 2 s.log = [0] ∧
      ((pollsSince 2 s.log).filter fun u => (s.tasks u).priority = (s.tasks 2).priority).length <
        s.nTasks := by
  obtain ⟨s, hs, h⟩ := exists_reachable (V := Unit)
    [.spawn .normal, .spawn .normal, .spawn .normal, .run, .go (.ok [])]
    (fun s => decide (s.panicked = none ∧ s.runnable 2 ∧ pollsSince 2 s.log = [0])) (by decide)
  obtain ⟨hp, ht, hpolls⟩ := of_decide_eq_true h
  exact ⟨s, hs, ht, hpolls, (overtaken_at_most_once hs hp ht).2.2⟩

/-! ## Endless runs -/

section Runs

variable {r : EndlessRun (step (V := V))}

/-- Nothing happens to a task that ends its wait. -/
structure Idles (t : TaskId) (s s' : Thread V) : Prop where
  polled : .polled t ∉ s.fresh s'
  aborted : .aborted t ∉ s.fresh s'
  enqueued : .enqueued t ∉ s.fresh s'
  cur : s'.cur = s.cur

/-- The polls, since the task was last enqueued, of tasks of its priority. -/
def turns (s : Thread V) (t : TaskId) : List TaskId :=
  (pollsSince t s.log).filter fun u => (s.tasks u).priority = (s.tasks t).priority

/-- A runnable task waits on. -/
lemma turns_of_step {a : Action V} (h : Reachable step IsStart s) (hs : s.step a = some s')
    (hp : s'.panicked = none) (ht : s.runnable t) (hidles : s.Idles t s') :
    s'.runnable t ∧ beforeEnqueue t s'.log = beforeEnqueue t s.log ∧
      (s.turns t).length ≤ (s'.turns t).length ∧
        ∀ u, .polled u ∈ s.fresh s' → (s'.tasks t).priority ≤ (s'.tasks u).priority →
          (s.turns t).length < (s'.turns t).length := by
  obtain ⟨l, hl⟩ := onward_of_step h hs hp
  have hfresh := fresh_of_onward hl
  obtain ⟨hpolled, haborted, henqueued, hcur⟩ := hidles
  rw [hfresh] at hpolled haborted henqueued ⊢
  have hlt := (wf_of_reachable h).ids t (alive_of_home ht)
  have ht' : s'.runnable t := hl.runnable t hlt ht hcur hpolled haborted
  have hlog : s'.log = l ++ s.log := hl.log
  obtain ⟨hpolls, hbefore⟩ := wait_append henqueued s.log
  have hpriority : ∀ u < s.nTasks, (s'.tasks u).priority = (s.tasks u).priority := hl.priority
  -- The polls before the step are still of the same priority.
  have hturns : s'.turns t = (pollsSince t l).filter
      (fun u => (s'.tasks u).priority = (s'.tasks t).priority) ++ s.turns t := by
    rw [turns, hlog, hpolls, List.filter_append, turns]
    congr 1
    refine List.filter_congr fun u hu => ?_
    rw [hpriority t hlt, hpriority u ((overtaken_of_reachable h (acts_of_step hs).1 ht).2.1 u hu).1]
  refine ⟨ht', by rw [hlog, hbefore], by simp [hturns], fun u hu hle => ?_⟩
  have hmem := mem_pollsSince henqueued hu
  have hle' := ((overtaken_of_reachable (.next h trivial hs) hp ht').2.1 u (by
    rw [hlog, hpolls]
    exact List.mem_append_left _ hmem)).2.1
  have hturn : u ∈ (pollsSince t l).filter fun u => (s'.tasks u).priority = (s'.tasks t).priority :=
    List.mem_filter.mpr ⟨hmem, decide_eq_true (hle'.antisymm hle)⟩
  have hpos := List.length_pos_of_mem hturn
  rw [hturns, List.length_append]
  omega

/-- No more tasks have their turns than had been enqueued before. -/
lemma length_turns_le (h : Reachable step IsStart s) (hp : s.panicked = none) (ht : s.runnable t) :
    (s.turns t).length ≤ (enqueuedTasks (beforeEnqueue t s.log)).length := by
  obtain ⟨-, hpolls, hnodup⟩ := overtaken_of_reachable h hp ht
  refine (List.subperm_of_subset hnodup fun u hu => ?_).length_le
  obtain ⟨hu, heq⟩ := List.mem_filter.mp hu
  exact mem_enqueuedTasks ((hpolls u hu).2.2 (of_decide_eq_true heq))

/-- While a task is runnable and its wait goes on, only finitely many polls of tasks of its priority or a lower
one begin. -/
lemma finitely_many_turns (h : Reachable step IsStart (r.state 0)) (hp : ∀ n, (r.state n).panicked = none)
    {n : ℕ} (hn : (r.state n).runnable t) (hidles : ∀ m, n ≤ m → (r.state m).Idles t (r.state (m + 1))) :
    (∀ m, n ≤ m → (r.state m).runnable t) ∧ ∃ k, n ≤ k ∧ ∀ m, k ≤ m →
      ¬ ∃ u, .polled u ∈ (r.state m).fresh (r.state (m + 1)) ∧
        ((r.state (m + 1)).tasks t).priority ≤ ((r.state (m + 1)).tasks u).priority := by
  have hstep : ∀ m, n ≤ m → (r.state m).runnable t → _ := fun m hnm hm =>
    turns_of_step (r.reachable h m) (r.next m) (hp (m + 1)) hm (hidles m hnm)
  have hwaits : ∀ m, n ≤ m → (r.state m).runnable t ∧
      beforeEnqueue t (r.state m).log = beforeEnqueue t (r.state n).log := by
    intro m hnm
    induction m, hnm using Nat.le_induction with
    | base => exact ⟨hn, rfl⟩
    | succ m hnm ih =>
      obtain ⟨ht, hbefore, -⟩ := hstep m hnm ih.1
      exact ⟨ht, hbefore.trans ih.2⟩
  have hbound : ∀ m, n ≤ m →
      ((r.state m).turns t).length ≤ (enqueuedTasks (beforeEnqueue t (r.state n).log)).length := by
    intro m hnm
    obtain ⟨ht, hbefore⟩ := hwaits m hnm
    exact hbefore ▸ length_turns_le (r.reachable h m) (hp m) ht
  refine ⟨fun m hnm => (hwaits m hnm).1, ?_⟩
  -- The tasks that are still ahead are a rank.
  refine EndlessRun.eventually_not_of_rank (fun m =>
    (enqueuedTasks (beforeEnqueue t (r.state n).log)).length - ((r.state m).turns t).length)
      (fun m hnm => ?_) fun m hnm hturn => ?_
  · obtain ⟨-, -, hle, -⟩ := hstep m hnm (hwaits m hnm).1
    exact Nat.sub_le_sub_left hle _
  · obtain ⟨u, hu, hpriority⟩ := hturn
    obtain ⟨-, -, -, hlt⟩ := hstep m hnm (hwaits m hnm).1
    have hturn := hlt u hu hpriority
    have hle := hbound (m + 1) (Nat.le_succ_of_le hnm)
    omega

/-- In every endless run without a panic in which polls go on, but from some time on none of a task of
higher priority, every runnable task is polled; unless it is aborted, enqueued again, or its executor
replaced. -/
theorem runnable_task_polled (h : Reachable step IsStart (r.state 0)) (hp : ∀ n, (r.state n).panicked = none)
    (hpolls : ∀ n, (r.state n).runnable t →
      ∃ m u, n ≤ m ∧ .polled u ∈ (r.state m).fresh (r.state (m + 1)))
    (hpriority : ∃ n₀, ∀ m u, n₀ ≤ m → .polled u ∈ (r.state m).fresh (r.state (m + 1)) →
      ((r.state (m + 1)).tasks t).priority ≤ ((r.state (m + 1)).tasks u).priority)
    (n : ℕ) (hn : (r.state n).runnable t) :
    ∃ m, n ≤ m ∧ (.polled t ∈ (r.state m).fresh (r.state (m + 1)) ∨
      .aborted t ∈ (r.state m).fresh (r.state (m + 1)) ∨
        .enqueued t ∈ (r.state m).fresh (r.state (m + 1)) ∨ (r.state (m + 1)).cur ≠ (r.state m).cur) := by
  by_contra hnever
  push Not at hnever
  have hidles : ∀ m, n ≤ m → (r.state m).Idles t (r.state (m + 1)) := fun m hnm =>
    have ⟨hpolled, haborted, henqueued, hcur⟩ := hnever m hnm
    ⟨hpolled, haborted, henqueued, hcur⟩
  obtain ⟨hwaits, k, hnk, hnone⟩ := finitely_many_turns h hp hn hidles
  obtain ⟨n₀, hpriority⟩ := hpriority
  obtain ⟨m, u, hm, hu⟩ := hpolls (max k n₀) (hwaits _ (hnk.trans (le_max_left _ _)))
  exact hnone m ((le_max_left _ _).trans hm) ⟨u, hu, hpriority m u ((le_max_right _ _).trans hm) hu⟩

end Runs

/-- The poll of a task goes on for ever. -/
def idle (s : Thread V) (hp : s.panicked = none) (hu : s.inUserCode = true) :
    EndlessRun (step (V := V)) where
  state _ := s
  action _ := .wake .noop (.error .other)
  next _ := by
    simp [step, hp, act, knows, answers, call, hu, wake, Outcome.thread]

/-- The third of three tasks is polled after the second one. -/
theorem runnable_task_polled_of_three : ∃ (r : EndlessRun (step (V := Unit))) (m : ℕ),
    (r.state 0).runnable 2 ∧ (r.state 0).front = some 1 ∧
      (.polled 2 ∈ (r.state m).fresh (r.state (m + 1)) ∨ .aborted 2 ∈ (r.state m).fresh (r.state (m + 1)) ∨
        .enqueued 2 ∈ (r.state m).fresh (r.state (m + 1)) ∨ (r.state (m + 1)).cur ≠ (r.state m).cur) := by
  -- The second task is polled, and then the third one, in the last step.
  obtain ⟨s₀, hs₀, h⟩ := exists_reachable (V := Unit)
    [.spawn .normal, .spawn .normal, .spawn .normal, .run, .go (.ok []), .pending, .go (.ok []),
      .go (.ok []), .go (.ok [])]
    (fun s₀ => (exec step (fun s _ => decide (s.panicked = none)) s₀
      [.go (.ok []), .pending, .go (.ok []), .go (.ok []), .go (.ok [])]).any fun s₁ : Thread Unit =>
        (s₁.step (.go (.ok []))).any fun s₂ : Thread Unit => decide (
          (s₀.runnable 2 ∧ s₀.front = some 1) ∧ s₁.panicked = none ∧ .polled 2 ∈ s₁.fresh s₂ ∧
            ¬ s₂.runnable 2 ∧ s₂.panicked = none ∧ s₂.inUserCode = true)) (by decide)
  obtain ⟨s₁, hexec, h⟩ := (Option.any_eq_true _ _).mp h
  obtain ⟨s₂, hs₂, h⟩ := (Option.any_eq_true _ _).mp h
  obtain ⟨hwaits, hp₁, hpolled, hdone, hp₂, hu⟩ := of_decide_eq_true h
  obtain ⟨r, rfl, hstates, hlater⟩ :=
    EndlessRun.exists_of_exec (r := .cons s₁ (.go (.ok [])) (s₂.idle hp₂ hu) hs₂) hexec
  have hrest : ∀ m, r.state (5 + (m + 1)) = s₂ := fun m => (hlater (m + 1)).1
  have hlast : r.state 5 = s₁ := (hlater 0).1
  have hp : ∀ n, (r.state n).panicked = none := fun n => by
    rcases hstates n with ⟨a, -, ha⟩ | ⟨m, hm, -⟩
    · exact of_decide_eq_true ha
    · cases m with
      | zero => exact hm ▸ hp₁
      | succ m => exact hm ▸ hp₂
  have hafter : ∀ n, 5 < n → r.state n = s₂ := fun n hn => by
    obtain ⟨m, rfl⟩ := Nat.exists_eq_add_of_lt hn
    exact hrest m
  have hpolls : ∀ n, (r.state n).runnable 2 →
      ∃ m u, n ≤ m ∧ .polled u ∈ (r.state m).fresh (r.state (m + 1)) := fun n hn => by
    have hle : n ≤ 5 := by
      by_contra hlt
      exact hdone (hafter n (by omega) ▸ hn)
    exact ⟨5, 2, hle, by rwa [hlast, hafter 6 (by omega)]⟩
  have hquiet : ∀ m u, 6 ≤ m → .polled u ∉ (r.state m).fresh (r.state (m + 1)) := fun m u hm => by
    rw [hafter m (by omega), hafter (m + 1) (by omega)]
    simp [fresh]
  obtain ⟨m, -, hm⟩ := runnable_task_polled hs₀ hp hpolls
    ⟨6, fun m u hm hu => absurd hu (hquiet m u hm)⟩ 0 hwaits.1
  exact ⟨r, m, hwaits.1, hwaits.2, hm⟩

end Thread

end Epox

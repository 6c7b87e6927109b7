import Epox.Executor.Waiting
import Epox.Executor.Wakes

/-!
# Which tasks a step puts into a queue

Every event that `epoll_wait` delivers is aimed at one task at most (`Thread.target`): the one whose
pointer is at the front of the pipe, or the one whose waker the `Fd` holds.  `Thread.reached s a` are the
tasks at which the step `a` aims, by events or by a waker that finds the pipe of its task to be that of the
current executor.  Those of them that are alive and have not completed are in their run queues after the
step, and the queue of any other task changes only if the task is released, spawned, or goes to sleep
(`home_of_step`).
-/

namespace Epox

namespace Thread

variable {V : Type} {s s' : Thread V}

/-! ## The target of an event -/

/-- The task that an event wakes, if any. -/
def target (s : Thread V) : EpollEvent → Option TaskId
  | .pipe => s.executor.pipe.head?.join
  | .fd f e =>
    if (s.fds f).ew.events.contains e then
      none
    else
      match (s.fds f).ew.waker with
      | .task t => some t
      | _ => none

/-- The task can be enqueued. -/
def Wakeable (s : Thread V) (t : TaskId) : Prop :=
  s.alive t = true ∧ (s.tasks t).hasCompleted = false

instance (s : Thread V) (t : TaskId) : Decidable (s.Wakeable t) := by
  unfold Wakeable
  infer_instance

/-- The queue of a task after the tasks of a list were woken. -/
def homeAfter (s : Thread V) (l : List TaskId) (t : TaskId) : Option QueueId :=
  if t ∈ l ∧ s.Wakeable t then some (s.cur, runq (s.tasks t).priority) else s.queues.home t

/-- Waking no task. -/
lemma homeAfter_nil (s : Thread V) (t : TaskId) : s.homeAfter [] t = s.queues.home t := by
  simp [homeAfter]

/-- Which tasks can be enqueued is not affected by wakes. -/
lemma Effects.wakeable_iff (h : Effects s s') (t : TaskId) : s'.Wakeable t ↔ s.Wakeable t := by
  rw [Wakeable, h.alive_congr, h.steady.tasks, Wakeable]

/-- The tasks of a list were woken by the current executor: those that can be enqueued are, which is
recorded, and the other executors are left alone. -/
structure Woke (s s' : Thread V) (l : List TaskId) : Prop where
  effects : Effects s s'
  home : ∀ t, s'.queues.home t = s.homeAfter l t
  execs : ∀ x, x ≠ s.cur → s'.execs x = s.execs x
  log : ∃ m, s'.log = m ++ s.log ∧ ∀ t, .enqueued t ∈ m ↔ t ∈ l ∧ s.Wakeable t

/-- Waking no task. -/
lemma woke_nil (heff : Effects s s') (hqueues : s'.queues = s.queues)
    (hexecs : ∀ x, x ≠ s.cur → s'.execs x = s.execs x) (hlog : s'.log = s.log) : Woke s s' [] where
  effects := heff
  home t := by simp [homeAfter, hqueues]
  execs := hexecs
  log := ⟨[], hlog, by simp⟩

/-- Waking tasks in two goes. -/
lemma Woke.trans {s₁ : Thread V} {l l' : List TaskId} (h : Woke s s₁ l) (h' : Woke s₁ s' l') :
    Woke s s' (l ++ l') where
  effects := h.effects.trans h'.effects
  home t := by
    have h₁ := h.home t
    rw [h'.home]
    simp only [homeAfter, h.effects.wakeable_iff, h.effects.steady.cur, h.effects.steady.tasks,
      List.mem_append] at h₁ ⊢
    by_cases hl' : t ∈ l' ∧ s.Wakeable t
    · rw [if_pos hl', if_pos ⟨.inr hl'.1, hl'.2⟩]
    · rw [if_neg hl', h₁]
      refine if_congr ⟨fun hl => ⟨.inl hl.1, hl.2⟩, fun hl => ⟨?_, hl.2⟩⟩ rfl rfl
      exact hl.1.resolve_right fun hm => hl' ⟨hm, hl.2⟩
  execs x hx := (h'.execs x (h.effects.steady.cur ▸ hx)).trans (h.execs x hx)
  log := by
    obtain ⟨m, hm, hmem⟩ := h.log
    obtain ⟨m', hm', hmem'⟩ := h'.log
    refine ⟨m' ++ m, by rw [hm', hm, List.append_assoc], fun t => ?_⟩
    rw [List.mem_append, hmem, hmem', h.effects.wakeable_iff, List.mem_append]
    tauto

/-- Enqueueing a task that is alive. -/
lemma woke_enqueue {u : TaskId} (halive : s.alive u = true) : Woke s (s.enqueue u) [u] := by
  refine ⟨enqueue_effects halive, fun t => ?_, fun x _ => ?_, ?_⟩
  all_goals by_cases hc : (s.tasks u).hasCompleted = true
  · have hnot : ¬ (t ∈ [u] ∧ s.Wakeable t) := by
      rintro ⟨ht, hw⟩
      simp [List.mem_singleton.mp ht, Wakeable, hc] at hw
    rw [enqueue_of_completed hc, homeAfter, if_neg hnot]
  · have hc : (s.tasks u).hasCompleted = false := by simpa using hc
    rw [enqueue_of_not_completed hc]
    by_cases ht : t = u
    · subst ht
      simp [homeAfter, Wakeable, halive, hc]
    · simp [homeAfter, Family.home_push, ht]
  · rw [enqueue_of_completed hc]
  · rw [enqueue_of_not_completed (by simpa using hc)]
  · refine ⟨[], by rw [enqueue_of_completed hc, List.nil_append], fun t => ?_⟩
    simp only [List.not_mem_nil, List.mem_singleton, false_iff]
    rintro ⟨rfl, hw⟩
    simp [Wakeable, hc] at hw
  · have hc : (s.tasks u).hasCompleted = false := by simpa using hc
    refine ⟨[.enqueued u], by rw [enqueue_of_not_completed hc, List.singleton_append], fun t => ?_⟩
    simp only [List.mem_singleton, Event.enqueued.injEq, iff_self_and]
    rintro rfl
    exact ⟨halive, hc⟩

/-- Waking a task by hand if it is alive. -/
lemma woke_if_alive (s : Thread V) (u : TaskId) :
    Woke s (if s.alive u then s.enqueue u else s) [u] := by
  split_ifs with halive
  · exact woke_enqueue halive
  · have hnot : ∀ t, ¬ (t ∈ [u] ∧ s.Wakeable t) := by
      rintro t ⟨ht, hw⟩
      exact halive (List.mem_singleton.mp ht ▸ hw.1)
    exact ⟨.refl, fun t => by rw [homeAfter, if_neg (hnot t)], fun _ _ => rfl, [], rfl,
      fun t => by simpa using hnot t⟩

/-- Reading from the pipe wakes the target of the event. -/
lemma wakeFromPipe_woke (h : s.wakeFromPipe = some s') : Woke s s' (s.target .pipe).toList := by
  have heff := wakeFromPipe_effects h
  dsimp only [wakeFromPipe] at h
  split at h
  · simp at h
  · rename_i p rest hpipe
    have hexecs : ∀ x, x ≠ s.cur →
        (s.setExec s.cur { s.executor with pipe := rest }).execs x = s.execs x := fun x hx => by
      simp [setExec, hx]
    split at h
    · obtain rfl := Option.some.inj h
      simp only [target, hpipe, List.head?_cons, Option.join_some, Option.toList_none]
      exact woke_nil heff rfl hexecs rfl
    · rename_i u
      obtain rfl := Option.some.inj h
      simp only [target, hpipe, List.head?_cons, Option.join_some, Option.toList_some]
      have hw := woke_if_alive (s.setExec s.cur { s.executor with pipe := rest }) u
      exact ⟨heff, hw.home, fun x hx => (hw.execs x hx).trans (hexecs x hx), hw.log⟩

/-- Delivering an event wakes its target. -/
lemma deliver_woke {f : FdId} {e : EpollFlags} (h : s.deliver f e = some s') :
    Woke s s' (s.target (.fd f e)).toList := by
  have heff := deliver_effects h
  dsimp only [deliver] at h
  split_ifs at h with hb hc
  · obtain rfl := Option.some.inj h
    simp only [target, if_pos hc, Option.toList_none]
    exact woke_nil heff rfl (fun _ _ => rfl) rfl
  · simp only [target, if_neg hc]
    cases hu : (s.fds f).ew.waker with
    | task u =>
      simp only [hu] at h
      obtain rfl := Option.some.inj h
      exact ⟨heff, (woke_if_alive (s.setFd f _) u).home, (woke_if_alive (s.setFd f _) u).execs,
        (woke_if_alive (s.setFd f _) u).log⟩
    | blockOn pipeWr b | noop | other j =>
      simp only [hu] at h
      obtain rfl := Option.some.inj h
      exact woke_nil heff rfl (fun _ _ => rfl) rfl

/-- Reading from the pipe leaves the targets of the events of `Fd`s alone. -/
lemma wakeFromPipe_target (h : s.wakeFromPipe = some s') {ev : EpollEvent} (hev : ev.key ≠ none) :
    s'.target ev = s.target ev := by
  cases ev with
  | pipe => exact absurd rfl hev
  | fd f e => simp only [target, (wakeFromPipe_frame h).1]

/-- Delivering an event leaves the targets of the other events alone. -/
lemma deliver_target {f : FdId} {e : EpollFlags} (h : s.deliver f e = some s') {ev : EpollEvent}
    (hev : ev.key ≠ some f) : s'.target ev = s.target ev := by
  cases ev with
  | pipe => simp only [target, deliver_executor h]
  | fd g e' =>
    have hg : g ≠ f := fun hg => hev (congrArg some hg)
    simp only [target, (deliver_frame h).1 g hg]

/-- The loop over the events wakes the targets of the events. -/
lemma wakeup_woke {evs : List EpollEvent} (hnodup : (evs.map EpollEvent.key).Nodup)
    (h : s.wakeup evs = .ok s') : Woke s s' (evs.filterMap s.target) := by
  induction evs generalizing s with
  | nil =>
    obtain rfl : s = s' := by simpa [wakeup] using h
    exact woke_nil .refl rfl (fun _ _ => rfl) rfl
  | cons ev evs ih =>
    rw [List.map_cons, List.nodup_cons] at hnodup
    -- The first event does not touch the targets of the others, whose keys are different.
    have key : ∀ s₁, Woke s s₁ (s.target ev).toList → (∀ ev' ∈ evs, s₁.target ev' = s.target ev') →
        s₁.wakeup evs = .ok s' → Woke s s' ((ev :: evs).filterMap s.target) := by
      intro s₁ hw htarget hs
      have hrest := hw.trans (ih hnodup.2 hs)
      rw [List.filterMap_congr htarget] at hrest
      cases htv : s.target ev <;> simpa [htv] using hrest
    have hkey : ∀ ev' ∈ evs, ev'.key ≠ ev.key := fun ev' hev' heq =>
      hnodup.1 (List.mem_map.mpr ⟨ev', hev', heq⟩)
    cases ev with
    | pipe =>
      simp only [wakeup] at h
      split at h
      · rename_i s₁ hs₁
        exact key s₁ (wakeFromPipe_woke hs₁)
          (fun ev' hev' => wakeFromPipe_target hs₁ (hkey ev' hev')) h
      · simp at h
    | fd f e =>
      simp only [wakeup] at h
      split at h
      · rename_i s₁ hs₁
        exact key s₁ (deliver_woke hs₁)
          (fun ev' hev' => deliver_target hs₁ (hkey ev' hev')) h
      · simp at h

/-- Unless it panics, `epoll_wait` wakes the targets of all events that the kernel reports. -/
lemma epollWait_woke {k : KernelAnswer} (hk : s.answers k) (hp : (s.epollWait k).panicked = none) :
    Woke s (s.epollWait k).memory (k.list.filterMap s.target) := by
  obtain ⟨hnodup, hs⟩ := wakeup_of_epollWait hk hp
  exact wakeup_woke hnodup hs

/-! ## Wakers -/

/-- The task that a waker enqueues by itself: its pipe is that of the current executor. -/
def direct (s : Thread V) : Waker → Option TaskId
  | .task t => if (s.tasks t).pipeWr = s.executor.pipeWr then some t else none
  | _ => none

/-- The events that a wake delivers. -/
def checked (s : Thread V) (k : KernelAnswer) (w : Waker) : List EpollEvent :=
  if s.wakeWaits w then k.list else []

/-- A wake on the thread of the task wakes the targets of the events it delivers, and the task. -/
lemma wake_home {k : KernelAnswer} {w : Waker} (hk : s.answers k) (hp : (s.wake k w).panicked = none)
    (t : TaskId) : (s.wake k w).memory.queues.home t =
      s.homeAfter ((s.checked k w).filterMap s.target ++ (s.direct w).toList) t := by
  cases w with
  | task u =>
    by_cases halive : s.alive u = true
    · by_cases hpipe : (s.tasks u).pipeWr = s.executor.pipeWr
      · have hdirect : (s.direct (.task u)).toList = [u] := by simp [direct, hpipe]
        -- The task is enqueued after the events, if any, were delivered.
        have key : ∀ s₁ l, Woke s s₁ l →
            (s₁.enqueue u).queues.home t = s.homeAfter (l ++ [u]) t := fun s₁ l hw =>
          (hw.trans (woke_enqueue (hw.effects.alive_congr.trans halive))).home t
        rw [hdirect]
        by_cases hb : (s.tasks u).borrowed = true
        · have hchecked : s.checked k (.task u) = k.list := by
            simp [checked, wakeWaits, halive, hpipe, hb]
          rw [hchecked]
          simp only [wake, taskWake, halive, hpipe, hb, if_true] at hp ⊢
          cases hout : s.epollWait k with
          | ok s₁ | err s₁ =>
            have hwoke := epollWait_woke hk (by simp [hout, Outcome.panicked])
            rw [hout] at hwoke
            exact key s₁ _ hwoke
          | panic p s₁ => simp [hout, Outcome.ignoreErr, Outcome.andThen, Outcome.panicked] at hp
        · have hchecked : s.checked k (.task u) = [] := by
            simp [checked, wakeWaits, hb]
          rw [hchecked]
          simp only [wake, taskWake, halive, hpipe, hb, if_true]
          exact key s [] (woke_nil .refl rfl (fun _ _ => rfl) rfl)
      · have hnone : (s.checked k (.task u)).filterMap s.target ++ (s.direct (.task u)).toList = [] := by
          simp [checked, wakeWaits, direct, hpipe]
        rw [hnone, homeAfter_nil]
        simp only [wake, taskWake, halive, hpipe, if_true, if_false] at hp ⊢
        split
        · rename_i s₁ hs₁
          exact congrArg (fun F : Family QueueId TaskId => F.home t) (write_written hs₁).queues
        · rfl
    · have hchecked : s.checked k (.task u) = [] := by simp [checked, wakeWaits, halive]
      have hnot : ¬ (t ∈ [].filterMap s.target ++ (s.direct (.task u)).toList ∧ s.Wakeable t) := by
        rintro ⟨ht, hw⟩
        have ht : t = u := by
          by_contra hne
          simp only [direct] at ht
          split_ifs at ht <;> simp_all
        exact halive (ht ▸ hw.1)
      rw [hchecked, homeAfter, if_neg hnot]
      simp only [wake, taskWake, halive]
      rfl
  | blockOn pipeWr b =>
    have hnone : (s.checked k (.blockOn pipeWr b)).filterMap s.target ++
        (s.direct (.blockOn pipeWr b)).toList = [] := by simp [checked, wakeWaits, direct]
    rw [hnone, homeAfter_nil]
    simp only [wake, blockOnWake] at hp ⊢
    split_ifs
    · rfl
    · split
      · rename_i s₁ hs₁
        exact congrArg (fun F : Family QueueId TaskId => F.home t) (write_written hs₁).queues
      · rfl
  | noop | other j =>
    simp only [checked, wakeWaits, direct, Bool.false_eq_true, if_false, List.filterMap_nil,
      Option.toList_none, List.append_nil, homeAfter_nil]
    rfl

/-! ## Steps -/

/-- The waker that a step invokes on this thread. -/
def invoked (s : Thread V) : Action V → Option Waker
  | .go _ =>
    match s.stack with
    | .runTask _ (.wakeHandle w) :: _ => some w
    | _ => none
  | .wake w _ => some w
  | .pollWith f cx _ =>
    match (s.fds f).ew.pollWithEnter cx with
    | .yield _ => if (s.fds f).borrowed then none else some cx
    | _ => none
  | _ => none

/-- The tasks at which a step aims: the targets of the events it delivers, and the task that its waker
enqueues by itself. -/
def reached (s : Thread V) (a : Action V) : List TaskId :=
  (s.reported a).filterMap s.target ++ ((s.invoked a).bind s.direct).toList

/-- How the queue of a task changes in a step that aims at no task. -/
def HomeChanges (s s' : Thread V) (t : TaskId) : Prop :=
  s'.queues.home t = none ∨ t = s.nTasks ∨ ∃ rest, s.stack = .runTask t .settle :: rest

/-- How the queues change in a step that aims at no task. -/
inductive QueuesChange (s s' : Thread V) : Prop
  | same (h : s'.queues = s.queues)
  | release (u : TaskId) (h : s'.queues = s.queues.release u)
  | spawn (q : QueueId) (h : s'.queues = s.queues.push q s.nTasks)
  | sleep (u : TaskId) (rest : List Frame) (hstack : s.stack = .runTask u .settle :: rest)
      (h : s'.queues = s.queues.push (s.cur, .sleepq) u)

/-- A task whose queue has changed was released, spawned, or went to sleep. -/
lemma QueuesChange.home (h : QueuesChange s s') (t : TaskId) :
    s'.queues.home t = s.queues.home t ∨ s.HomeChanges s' t := by
  cases h with
  | same h => exact .inl (by rw [h])
  | release u h =>
    by_cases ht : t = u
    · exact .inr (.inl (by rw [h, Family.home_release, if_pos ht]))
    · exact .inl (by rw [h, Family.home_release, if_neg ht])
  | spawn q h =>
    by_cases ht : t = s.nTasks
    · exact .inr (.inr (.inl ht))
    · exact .inl (by rw [h, Family.home_push, if_neg ht])
  | sleep u rest hstack h =>
    by_cases ht : t = u
    · exact .inr (.inr (.inr ⟨rest, ht ▸ hstack⟩))
    · exact .inl (by rw [h, Family.home_push, if_neg ht])

/-- The queues in a step of library code that aims at no task. -/
lemma queues_of_go {k : KernelAnswer} (h : s.go k = some s') (hp : s'.panicked = none)
    (hw : s.waitsWith (.go k) = none) (hi : s.invoked (.go k) = none) : QueuesChange s s' := by
  -- A poll of the front of the run queues begins.
  have hrun : ∀ u f, (({ s with queues := s.queues.release u } : Thread V).setStack f).runTask u = s' →
      QueuesChange s s' := by
    intro u f hs'
    unfold runTask at hs'
    split_ifs at hs'
    · rw [← hs'] at hp
      simp [panic] at hp
    · exact .release u (hs' ▸ rfl)
  unfold go at h
  split at h
  · rename_i pc rest hstack
    cases pc with
    | select =>
      simp only [goRun, highestPriorityRunnableTask_eq] at h
      cases hfront : s.front with
      | none =>
        simp only [hfront, Option.map_none, Option.some.injEq] at h
        exact .same (h ▸ rfl)
      | some u =>
        simp only [hfront, Option.map_some, Option.some.injEq] at h
        exact hrun u _ h
    | afterTask =>
      simp only [goRun] at h
      split_ifs at h <;> exact .same (Option.some.inj h ▸ rfl)
    | checkSleepq =>
      simp only [goRun] at h
      split_ifs at h <;> exact .same (Option.some.inj h ▸ rfl)
    | waitZero | waitNone => simp [waitsWith, hstack] at hw
    | replace | dropping x => simp [goRun] at h
    | teardown x =>
      simp only [goRun] at h
      split at h
      · rename_i u s₁ hpop
        obtain ⟨-, rfl⟩ := popReplaced_eq_some hpop
        refine .release u ?_
        rw [← Option.some.inj h]
        split_ifs <;> rfl
      · exact .same (Option.some.inj h ▸ rfl)
  · rename_i u pc rest hstack
    cases pc with
    | settle =>
      simp only [goRunTask] at h
      split_ifs at h
      · exact .same (Option.some.inj h ▸ rfl)
      · exact .sleep u rest hstack (Option.some.inj h ▸ rfl)
    | wakeHandle w => simp [invoked, hstack] at hi
    | complete =>
      refine .same ?_
      simp only [goRunTask] at h
      rw [← Option.some.inj h]
      split_ifs <;> rfl
    | polling | inHandleWake | drop => simp [goRunTask] at h
  · rename_i b pc rest hstack
    cases pc with
    | select =>
      simp only [goBlockOn, highestPriorityRunnableTask_eq] at h
      cases hfront : s.front with
      | none =>
        simp only [hfront, Option.map_none, Option.some.injEq] at h
        exact .same (h ▸ rfl)
      | some u =>
        simp only [hfront, Option.map_some, Option.some.injEq] at h
        exact hrun u _ h
    | waitZero | waitNone => simp [waitsWith, hstack] at hw
    | polling => simp [goBlockOn] at h
  · simp at h

/-- The queues in a step of a loop that waits for events. -/
lemma queues_of_wait {k k' : KernelAnswer} (h : s.go k = some s') (hp : s'.panicked = none)
    (hw : s.waitsWith (.go k) = some k') (hi : s.invoked (.go k) = none) :
    k' = k ∧ (s.epollWait k).panicked = none ∧ s'.queues = (s.epollWait k).memory.queues := by
  unfold go at h
  split at h
  · rename_i pc rest hstack
    cases pc with
    | waitZero | waitNone =>
      have hk' : k' = k := by simpa [waitsWith, hstack] using hw.symm
      simp only [goRun] at h
      cases hk : s.epollWait k with
      | ok s₁ | err s₁ =>
        simp only [hk, Option.some.injEq] at h
        exact ⟨hk', rfl, h ▸ rfl⟩
      | panic p s₁ =>
        simp only [hk, Option.some.injEq] at h
        simp [← h, panic] at hp
    | _ => simp [waitsWith, hstack] at hw
  · rename_i u pc rest hstack
    cases pc with
    | wakeHandle w => simp [invoked, hstack] at hi
    | _ => simp [waitsWith, hstack] at hw
  · rename_i b pc rest hstack
    cases pc with
    | waitZero | waitNone =>
      have hk' : k' = k := by simpa [waitsWith, hstack] using hw.symm
      simp only [goBlockOn] at h
      cases hk : s.epollWait k with
      | ok s₁ =>
        simp only [hk, Option.some.injEq] at h
        exact ⟨hk', rfl, h ▸ rfl⟩
      | err s₁ | panic p s₁ =>
        simp only [hk, Option.some.injEq] at h
        simp [← h, panic] at hp
    | _ => simp [waitsWith, hstack] at hw
  · simp at h

/-- A step that neither waits for events nor invokes a waker aims at no task. -/
lemma QueuesChange.home_of_quiet {a : Action V} (h : QueuesChange s s') (hw : s.waitsWith a = none)
    (hi : s.invoked a = none) (t : TaskId) :
    s'.queues.home t = s.homeAfter (s.reached a) t ∨ s.reached a = [] ∧ s.HomeChanges s' t := by
  have hnil : s.reached a = [] := by simp [reached, reported, hw, hi]
  rw [hnil, homeAfter_nil]
  exact (h.home t).imp_right fun hc => ⟨rfl, hc⟩

/-- When a task completes, library code wakes through the waker of its handle. -/
lemma home_of_handleWaker {k : KernelAnswer} {w : Waker} (hk : s.answers k) (h : s.go k = some s')
    (hp : s'.panicked = none) (hi : s.invoked (.go k) = some w) (t : TaskId) :
    s'.queues.home t = s.homeAfter (s.reached (.go k)) t := by
  obtain ⟨u, rest, hstack⟩ : ∃ u rest, s.stack = .runTask u (.wakeHandle w) :: rest := by
    simp only [invoked] at hi
    split at hi
    · rename_i u w' rest hstack
      exact ⟨u, rest, Option.some.inj hi ▸ hstack⟩
    · simp at hi
  have hreached : s.reached (.go k) =
      (s.checked k w).filterMap s.target ++ (s.direct w).toList := by
    simp only [reached, reported, waitsWith, hstack, hi, checked]
    split_ifs <;> rfl
  have hout : (s.wake k w).panicked = none ∧ s'.queues = (s.wake k w).memory.queues := by
    simp only [go, hstack, goRunTask] at h
    cases hw : s.wake k w with
    | ok s₁ | err s₁ =>
      simp only [hw] at h
      split at h <;> exact ⟨rfl, Option.some.inj h ▸ rfl⟩
    | panic p s₁ =>
      simp only [hw, Option.some.injEq] at h
      simp [← h, panic] at hp
  rw [hout.2, hreached]
  exact wake_home hk hout.1 t

/-- Library code moves the tasks at which it aims. -/
lemma home_of_go {k : KernelAnswer} (hk : s.answers k) (h : s.go k = some s') (hp : s'.panicked = none)
    (t : TaskId) : s'.queues.home t = s.homeAfter (s.reached (.go k)) t ∨
      s.reached (.go k) = [] ∧ s.HomeChanges s' t := by
  cases hi : s.invoked (.go k) with
  | some w => exact .inl (home_of_handleWaker hk h hp hi t)
  | none =>
    cases hw : s.waitsWith (.go k) with
    | none => exact (queues_of_go h hp hw hi).home_of_quiet hw hi t
    | some k' =>
      -- A loop waits for events.
      obtain ⟨rfl, hpanic, hqueues⟩ := queues_of_wait h hp hw hi
      have hreached : s.reached (.go k') = k'.list.filterMap s.target := by
        simp [reached, reported, hw, hi]
      left
      rw [hqueues, hreached]
      exact (epollWait_woke hk hpanic).home t

/-- A call of `poll_with` that yields wakes its own task. -/
lemma home_of_yield {f : FdId} {cx : Waker} {k : KernelAnswer} {ew : EpollWaker} (hk : s.answers k)
    (hb : ¬ (s.fds f).borrowed = true) (he : (s.fds f).ew.pollWithEnter cx = .yield ew)
    (hp : (s.pollWith k f cx).thread.panicked = none) (t : TaskId) :
    (s.pollWith k f cx).thread.queues.home t = s.homeAfter (s.reached (.pollWith f cx k)) t := by
  have hpoll : s.pollWith k f cx = (s.setFd f { s.fds f with ew := ew }).wake k cx := by
    simp only [pollWith, if_neg hb, he]
  rw [hpoll] at hp ⊢
  obtain ⟨hout, hthread⟩ := panicked_of_thread hp
  have hew := eq_of_yield he
  -- The `Fd` keeps its flags and its waker.
  have htarget : (s.setFd f { s.fds f with ew := ew }).target = s.target := by
    funext ev
    cases ev with
    | pipe => rfl
    | fd g e => by_cases hg : g = f <;> simp [target, setFd, hg, ← hew]
  have hreached : s.reached (.pollWith f cx k) =
      ((s.setFd f { s.fds f with ew := ew }).checked k cx).filterMap s.target ++
        ((s.setFd f { s.fds f with ew := ew }).direct cx).toList := by
    have hwaits : (s.setFd f { s.fds f with ew := ew }).wakeWaits cx = s.wakeWaits cx := by
      cases cx <;> rfl
    have hdirect : (s.setFd f { s.fds f with ew := ew }).direct cx = s.direct cx := by
      cases cx <;> rfl
    simp only [reached, reported, waitsWith, invoked, he, checked, hb]
    split_ifs <;> simp_all
  rw [hthread, wake_home (answers_setFd hk) hout t, htarget, hreached]
  rfl

/-- The tasks at which a step aims are in their run queues after it, if they are alive and have not
completed.  The queue of any other task changes only in a step that aims at no task, and then the task was
released, spawned, or went to sleep. -/
theorem home_of_step {a : Action V} (h : s.step a = some s') (hp : s'.panicked = none) (t : TaskId) :
    s'.queues.home t = s.homeAfter (s.reached a) t ∨ s.reached a = [] ∧ s.HomeChanges s' t := by
  have hquiet : s.waitsWith a = none → s.invoked a = none → QueuesChange s s' →
      s'.queues.home t = s.homeAfter (s.reached a) t ∨ s.reached a = [] ∧ s.HomeChanges s' t :=
    fun hw hi hq => hq.home_of_quiet hw hi t
  cases (acts_of_step h).2 with
  | go k hk hgo => exact home_of_go hk hgo hp t
  | spawn priority =>
    refine hquiet rfl rfl (.spawn (s.cur, runq priority) ?_)
    rw [Thread.spawn, enqueue_of_not_completed (by simp)]
    simp
  | wake w k hu hknows hk =>
    have hreported : s.reported (.wake w k) = s.checked k w := by
      simp only [reported, waitsWith, checked]
      split_ifs <;> rfl
    obtain ⟨hp, hthread⟩ := panicked_of_thread hp
    left
    rw [hthread, wake_home hk hp t, reached, hreported]
    rfl
  | abort u => exact hquiet rfl rfl (.release u rfl)
  | handleResult u =>
    refine hquiet rfl rfl (.same ?_)
    unfold handleResult
    split_ifs <;> rfl
  | handlePoll u w =>
    refine hquiet rfl rfl (.same ?_)
    unfold handlePoll
    split_ifs
    · rfl
    · split <;> rfl
  | fdNew raw events fcntl ctl =>
    exact hquiet rfl rfl (.same (fdNew_queues s raw events fcntl ctl))
  | pollWith f cx k hu hk =>
    by_cases hb : (s.fds f).borrowed = true
    · rw [pollWith, if_pos hb] at hp
      simp [Outcome.thread, panic] at hp
    · cases he : (s.fds f).ew.pollWithEnter cx with
      | pending ew | call =>
        refine hquiet (by simp [waitsWith, he]) (by simp [invoked, he]) (.same ?_)
        simp only [pollWith, if_neg hb, he]
        rfl
      | yield ew => exact .inl (home_of_yield hk hb he hp t)
  | foreignWrite u => exact hquiet rfl rfl (.same (foreignWrite_undisturbed s u).queues)
  | foreignBlockOn b => exact hquiet rfl rfl (.same (foreignBlockOn_undisturbed s b).queues)
  | _ => exact hquiet rfl rfl (.same rfl)

end Thread

end Epox

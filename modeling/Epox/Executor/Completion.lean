import Epox.Executor.Wakes

/-!
# No task is lost

Every task of the current executor that has not completed, has not been aborted and is not being polled
is in exactly one queue.  When `run` finds its queues empty there is no such task, so it ends only after
all tasks have, unless it is told to shut down.
-/

namespace Epox

/-- An activation of `run`. -/
def Frame.isRun : Frame → Bool
  | .run _ => true
  | _ => false

/-- No activation of `run` was called from inside the poll of a task. -/
def RunsOutside : List Frame → Prop
  | [] => True
  | f :: rest => (f.isRun = true → rest.filterMap Frame.held = []) ∧ RunsOutside rest

namespace Thread

variable {V : Type} {s s' : Thread V}

/-! ## Where tasks are -/

/-- Every task of the current executor that has not completed, has not been aborted and is not being
polled is in exactly one queue: the sleep queue or the run queue of its priority. -/
lemma exists_queue (h : Reachable step IsStart s) (hp : s.panicked = none) {t : TaskId}
    (ht : t < s.nTasks) (hexec : (s.tasks t).exec = s.cur) (hc : (s.tasks t).hasCompleted = false)
    (hab : .aborted t ∉ s.log) (hrun : t ∉ s.running) :
    ∃ q, (q = .sleepq ∨ q = runq (s.tasks t).priority) ∧ s.queues.home t = some (s.cur, q) := by
  have hr := abs_reached h
  have hhome := hr.kept (by simp [abs, hp]) t ht hexec hc hab (by rwa [abs_running])
  obtain ⟨⟨x, q⟩, hq⟩ := Option.ne_none_iff_exists'.mp hhome
  obtain ⟨hle, hge, hname⟩ := (hr.placed t).2 x q hq
  obtain rfl : s.cur = x := le_antisymm (hexec ▸ hle) hge
  exact ⟨q, hname, hq⟩

/-- All tasks of an executor have been aborted or have completed. -/
def Done (s : Thread V) (x : ExecId) : Prop :=
  ∀ t < s.nTasks, (s.tasks t).exec = x → .aborted t ∈ s.log ∨ (s.tasks t).hasCompleted = true

/-- When the queues of the current executor are empty and no task is being polled, all its tasks have
been aborted or have completed. -/
lemma done_of_empty (h : Reachable step IsStart s) (hp : s.panicked = none) (hfront : s.front = none)
    (hsleep : s.queues.list (s.cur, .sleepq) = []) (hrun : s.running = []) : s.Done s.cur := by
  intro t ht hexec
  by_contra hn
  rw [not_or, Bool.not_eq_true] at hn
  obtain ⟨q, hq, hhome⟩ := exists_queue h hp ht hexec hn.2 hn.1 (by simp [hrun])
  have hmem := (s.queues.mem_list (s.cur, q) t).mpr hhome
  simp only [front, Option.or_eq_none_iff, List.head?_eq_none_iff] at hfront
  rcases hq with rfl | rfl
  · simp [hsleep] at hmem
  · cases hprio : (s.tasks t).priority <;> simp_all [runq]

/-! ## What never changes back -/

/-- New tasks belong to the current executor, tasks stay completed, and history is not rewritten. -/
structure Later (s s' : Thread V) : Prop where
  cur : s.cur ≤ s'.cur
  nTasks : s.nTasks ≤ s'.nTasks
  exec : ∀ t < s.nTasks, (s'.tasks t).exec = (s.tasks t).exec
  spawned : ∀ t, s.nTasks ≤ t → t < s'.nTasks → (s'.tasks t).exec = s.cur
  completed : ∀ t < s.nTasks, (s.tasks t).hasCompleted = true → (s'.tasks t).hasCompleted = true
  log : ∀ e ∈ s.log, e ∈ s'.log
  shutdown : ∀ x < s.cur, (s'.execs x).shutdown = (s.execs x).shutdown

/-- The tasks of a replaced executor stay aborted or completed. -/
lemma Done.later {x : ExecId} (h : s.Done x) (hl : Later s s')
    (hx : x ≠ s.cur ∨ s'.nTasks = s.nTasks) : s'.Done x := by
  intro t ht hexec
  by_cases hlt : t < s.nTasks
  · exact (h t hlt (hl.exec t hlt ▸ hexec)).imp (hl.log _) (hl.completed t hlt)
  · rcases hx with hx | hx
    · exact absurd (hexec.symm.trans (hl.spawned t (not_lt.mp hlt) ht)) hx
    · exact absurd (hx ▸ ht) hlt

/-- A step that changes neither the executor nor the tasks. -/
lemma later_of_tasks (hcur : s'.cur = s.cur) (htasks : s'.tasks = s.tasks)
    (hn : s'.nTasks = s.nTasks) (hlog : ∀ e ∈ s.log, e ∈ s'.log)
    (hshutdown : ∀ x < s.cur, (s'.execs x).shutdown = (s.execs x).shutdown) : Later s s' where
  cur := hcur.ge
  nTasks := hn.ge
  exec t _ := by rw [htasks]
  spawned t h h' := absurd (hn ▸ h') (not_lt.mpr h)
  completed t _ h := by rwa [htasks]
  log := hlog
  shutdown := hshutdown

/-- The effects of wakes change nothing back. -/
lemma Effects.later (h : Effects s s') : Later s s' := by
  have hs := h.untouched
  obtain ⟨l, hl, -⟩ := hs.log
  exact later_of_tasks hs.cur hs.tasks hs.nTasks (fun e he => by simp [hl, he]) fun x _ =>
    hs.shutdown x

/-- Replacing what a task stores. -/
lemma later_of_setTask {t : TaskId} {e : ExecutorTask V} (hcur : s'.cur = s.cur)
    (htasks : s'.tasks = Function.update s.tasks t e) (hn : s'.nTasks = s.nTasks)
    (hexec : e.exec = (s.tasks t).exec)
    (hc : (s.tasks t).hasCompleted = true → e.hasCompleted = true)
    (hlog : ∀ e ∈ s.log, e ∈ s'.log)
    (hshutdown : ∀ x < s.cur, (s'.execs x).shutdown = (s.execs x).shutdown) : Later s s' where
  cur := hcur.ge
  nTasks := hn.ge
  exec u _ := by
    rw [htasks]
    by_cases hu : u = t
    · simp [hu, hexec]
    · simp [hu]
  spawned u h h' := absurd (hn ▸ h') (not_lt.mpr h)
  completed u _ h := by
    rw [htasks]
    by_cases hu : u = t
    · subst hu
      simpa using hc h
    · simpa [hu] using h
  log := hlog
  shutdown := hshutdown

/-- Creating or dropping an `Fd` changes nothing back. -/
lemma fdDrop_later (s : Thread V) (f : FdId) : Later s (s.fdDrop f) := by
  have hs := fdDrop_steady s f
  refine later_of_tasks hs.cur hs.tasks hs.nTasks (fun e he => List.mem_cons_of_mem _ he) fun x hx => ?_
  simp [fdDrop, emit, setFd, epollDel, setExec, hx.ne]

/-- Changes in a row. -/
lemma Later.trans_of_eq {s₁ : Thread V} (h : Later s s₁) (h' : Later s₁ s')
    (hcur : s₁.cur = s.cur) : Later s s' where
  cur := h.cur.trans h'.cur
  nTasks := h.nTasks.trans h'.nTasks
  exec t ht := (h'.exec t (ht.trans_le h.nTasks)).trans (h.exec t ht)
  spawned t ht ht' := by
    by_cases hlt : t < s₁.nTasks
    · exact (h'.exec t hlt).trans (h.spawned t ht hlt)
    · exact (h'.spawned t (not_lt.mp hlt) ht').trans hcur
  completed t ht hc := h'.completed t (ht.trans_le h.nTasks) (h.completed t ht hc)
  log e he := h'.log e (h.log e he)
  shutdown x hx := (h'.shutdown x (hcur ▸ hx)).trans (h.shutdown x hx)

/-- Creating an `Fd` changes nothing back. -/
lemma fdNew_later (s : Thread V) (raw : RawFd) (events : EpollFlags) (fcntl ctl : Bool) :
    Later s (s.fdNew raw events fcntl ctl) := by
  have hadd : ∀ fd interest, Later s (s.addFd fd interest) := fun fd interest =>
    later_of_tasks rfl rfl rfl (fun _ => id) fun x hx => by simp [addFd, setExec, hx.ne]
  rcases fdNew_cases s raw events fcntl ctl with h | ⟨fd, interest, -, -, h | h⟩ <;> rw [h]
  · exact later_of_tasks rfl rfl rfl (fun _ => id) fun _ _ => rfl
  · exact hadd fd interest
  · exact (hadd fd interest).trans_of_eq (fdDrop_later _ _) (addFd_steady s fd interest).cur

/-- Changing the stack changes nothing back. -/
lemma Later.setStack (h : Later s s') (stack : List Frame) : Later s (s'.setStack stack) :=
  ⟨h.cur, h.nTasks, h.exec, h.spawned, h.completed, h.log, h.shutdown⟩

/-- Recording an event changes nothing back. -/
lemma Later.emit (h : Later s s') (e : Event) : Later s (s'.emit e) :=
  ⟨h.cur, h.nTasks, h.exec, h.spawned, h.completed, fun e' he => List.mem_cons_of_mem e (h.log e' he),
    h.shutdown⟩

/-- No move changes anything back. -/
lemma Move.later {a : Action V} (hm : Move s a s') : Later s s' := by
  cases hm with
  | stay hu heff => exact Effects.later heff
  | jump hstack hj => exact (Effects.later hj.effects).setStack _
  | crash heff hp =>
    have h := Effects.later heff
    exact ⟨h.cur, h.nTasks, h.exec, h.spawned, h.completed, h.log, h.shutdown⟩
  | repoll hstack hpc heff => exact ((Effects.later heff).setStack _).emit _
  | select hstack hf hfront hb =>
    exact later_of_setTask rfl rfl rfl rfl id (fun e he => List.mem_cons_of_mem _ he) fun _ _ => rfl
  | pending hstack => exact later_of_setTask rfl rfl rfl rfl id (fun _ => id) fun _ _ => rfl
  | ready hstack =>
    exact later_of_setTask rfl rfl rfl rfl id (fun e he => List.mem_cons_of_mem _ he) fun _ _ => rfl
  | complete hstack hfs =>
    exact later_of_setTask rfl rfl rfl rfl (fun _ => rfl) (fun e he => List.mem_cons_of_mem _ he)
      fun _ _ => rfl
  | handle hu hh he =>
    exact later_of_setTask rfl rfl rfl (by rw [he]) (by rw [he]; exact id) (fun _ => id) fun _ _ => rfl
  | @replace pipeWr rest hstack hfd =>
    refine ⟨Nat.le_succ _, le_rfl, fun _ _ => rfl, fun t h h' => absurd h' (not_lt.mpr h),
      fun _ _ => id, fun _ => id, fun x hx => ?_⟩
    simp [Thread.setStack, setExec, (hx.trans (Nat.lt_succ_self _)).ne]
  | @close k x rest hstack =>
    refine later_of_tasks rfl rfl rfl (fun e he => List.mem_cons_of_mem _ he) fun y _ => ?_
    by_cases hy : y = x
    · simp [Thread.emit, Thread.setStack, setExec, hy]
    · simp [Thread.emit, Thread.setStack, setExec, hy]
  | @spawn p hu =>
    rw [Thread.spawn, enqueue_of_not_completed (by simp)]
    refine ⟨le_rfl, Nat.le_succ _, fun t ht => ?_, fun t ht ht' => ?_, fun t ht hc => ?_,
      fun e he => by simp [he], fun _ _ => rfl⟩
    · simp [ht.ne]
    · obtain rfl : t = s.nTasks := le_antisymm (Nat.le_of_lt_succ ht') ht
      simp
    · simpa [ht.ne] using hc
  | shutdown hu =>
    exact later_of_tasks rfl rfl rfl (fun _ => id) fun x hx => by simp [setExec, hx.ne]
  | fdNew hu => exact fdNew_later s _ _ _ _
  | fdDrop hu hlive => exact fdDrop_later s _
  | @foreignWrite t =>
    have h := Effects.later (foreignWrite_effects s t)
    exact ⟨h.cur, h.nTasks, h.exec, h.spawned, h.completed, h.log, h.shutdown⟩
  | foreignBlockOn => exact Effects.later (foreignBlockOn_effects s _)
  | selectCrash | sleep | enterPollWith | closure | foreignUpgrade =>
    exact later_of_tasks rfl rfl rfl (fun _ => id) fun _ _ => rfl
  | discard | abort | blockOn =>
    exact later_of_tasks rfl rfl rfl (fun e he => List.mem_cons_of_mem _ he) fun _ _ => rfl

/-- Only `run` replaces the executor. -/
lemma cur_of_step {a : Action V} (h : s.step a = some s') (ha : ∀ fd, a ≠ .replace (some fd)) :
    s'.cur = s.cur := by
  cases (move_of_step h).2 with
  | stay hu heff | repoll hstack hpc heff => exact heff.steady.cur
  | jump hstack hj => exact hj.effects.steady.cur
  | crash heff hp => exact heff.steady.cur
  | replace => exact absurd rfl (ha _)
  | spawn hu => rw [Thread.spawn, enqueue_of_not_completed (by simp)]
  | fdNew hu => exact (fdNew_steady s _ _ _ _).cur
  | foreignWrite => exact (foreignWrite_effects s _).steady.cur
  | foreignBlockOn => exact (foreignBlockOn_effects s _).steady.cur
  | _ => rfl

/-! ## When `run` ends -/

/-- `run` is not called from inside the poll of a task, where it would re-enter the loop that polls the
task. -/
def NotReentrant (s : Thread V) : Action V → Prop
  | .run => s.running = []
  | _ => True

instance (s : Thread V) : (a : Action V) → Decidable (NotReentrant s a)
  | .run => inferInstanceAs (Decidable (s.running = []))
  | .go _ | .replace _ | .spawn _ | .wake _ _ | .abort _ | .handleResult _ | .handlePoll _ _
  | .dropHandle _ | .shutdown | .blockOn | .pending | .ready _ | .finish | .fdNew _ _ _ _ | .fdDrop _
  | .pollWith _ _ _ | .closure _ | .foreignUpgrade _ | .foreignWrite _ | .foreignBlockOn _ =>
    .isTrue trivial

/-- A jump leaves the activations of `run` outside the polls of tasks. -/
lemma Jump.runsOutside {a : Action V} {f : Frame} {fs rest : List Frame} (hj : Jump s a s' f fs)
    (hstack : s.stack = f :: rest) (hC : NotReentrant s a) (h : RunsOutside s.stack) :
    RunsOutside (fs ++ rest) := by
  rw [hstack] at h
  cases hj with
  | enterRun hu =>
    have hrun : s.running = [] := hC
    rw [running, hstack] at hrun
    exact ⟨fun _ => hrun, h⟩
  | handleWake hpc heff => exact ⟨by simp [Frame.isRun], h.2⟩
  | runFailed | replaceFailed | settled | dropped | blockOnReady => exact h.2
  | blockOnPending | blockOnIdle | handleWoken => exact ⟨by simp [Frame.isRun], h.2⟩
  | _ => exact ⟨fun _ => h.1 rfl, h.2⟩

/-- Every move leaves the activations of `run` outside the polls of tasks. -/
lemma Move.runsOutside {a : Action V} (hm : Move s a s') (hC : NotReentrant s a)
    (h : RunsOutside s.stack) : RunsOutside s'.stack := by
  cases hm with
  | stay hu heff => rwa [heff.steady.stack]
  | jump hstack hj => exact hj.runsOutside hstack hC h
  | crash heff hp => exact heff.steady.stack ▸ h
  | @selectCrash k f f' rest t hstack hf hfront hb | @select k f f' rest t hstack hf hfront hb =>
    rw [hstack] at h
    have hf' : RunsOutside (f' :: rest) := by
      rcases Frame.of_loop hf with ⟨rfl, rfl⟩ | ⟨b, rfl, rfl⟩
      · exact ⟨fun _ => h.1 rfl, h.2⟩
      · exact ⟨by simp [Frame.isRun], h.2⟩
    first | exact hf' | exact ⟨by simp [Frame.isRun], hf'⟩
  | repoll hstack | pending hstack | ready hstack =>
    rw [hstack] at h
    exact ⟨by simp [Frame.isRun], h.2⟩
  | sleep hstack | close hstack | closure hstack =>
    rw [hstack] at h
    exact h.2
  | complete hstack hfs =>
    rw [hstack] at h
    rcases hfs with rfl | rfl
    · exact h.2
    · exact ⟨by simp [Frame.isRun], h.2⟩
  | replace hstack | discard hstack =>
    rw [hstack] at h
    exact ⟨fun _ => h.1 rfl, h.2⟩
  | spawn hu => rwa [Thread.spawn, enqueue_of_not_completed (by simp)]
  | blockOn hu | enterPollWith hu => exact ⟨by simp [Frame.isRun], h⟩
  | fdNew hu => rwa [(fdNew_steady s _ _ _ _).stack]
  | fdDrop hu hlive => rwa [(fdDrop_steady s _).stack]
  | foreignWrite => rwa [(foreignWrite_effects s _).steady.stack]
  | foreignBlockOn => rwa [(foreignBlockOn_effects s _).steady.stack]
  | abort | handle | shutdown | foreignUpgrade => exact h

/-- Only the end of a call of `run` is recorded as one. -/
lemma Move.of_ran {a : Action V} (hm : Move s a s') {x : ExecId} {b : Bool}
    (h : .ran x b ∈ s'.log) : .ran x b ∈ s.log ∨
      (∃ k rest, a = .go k ∧ s.stack = .run (.teardown x) :: rest) ∧ b = (s.execs x).shutdown ∧
        s'.log = .ran x b :: s.log := by
  have heffects : ∀ s₁ s₂ : Thread V, Effects s₁ s₂ → .ran x b ∈ s₂.log → .ran x b ∈ s₁.log := by
    intro s₁ s₂ heff h
    obtain ⟨l, hl, hwake⟩ := heff.untouched.log
    rw [hl] at h
    exact (List.mem_append.mp h).resolve_left fun hm => by simpa [Event.isWake] using hwake _ hm
  cases hm with
  | stay hu heff => exact .inl (heffects _ _ heff h)
  | jump hstack hj => exact .inl (heffects _ _ hj.effects h)
  | crash heff hp => exact .inl (heffects _ _ heff h)
  | repoll hstack hpc heff => exact .inl (heffects _ _ heff ((List.mem_cons.mp h).resolve_left (by simp)))
  | @close k y rest hstack =>
    rcases List.mem_cons.mp h with h | h
    · obtain ⟨rfl, rfl⟩ := Event.ran.inj h
      exact .inr ⟨⟨k, rest, rfl, hstack⟩, rfl, rfl⟩
    · exact .inl h
  | spawn hu =>
    rw [Thread.spawn, enqueue_of_not_completed (by simp)] at h
    exact .inl (by simpa using h)
  | @fdNew raw events fcntl ctl hu =>
    left
    rcases fdNew_cases s raw events fcntl ctl with hs | ⟨fd, interest, -, -, hs | hs⟩ <;> rw [hs] at h
    · exact h
    · exact h
    · exact (List.mem_cons.mp h).resolve_left (by simp)
  | @foreignWrite t => exact .inl (heffects { s with waking := s.waking.erase t } _ (foreignWrite_effects s t) h)
  | foreignBlockOn => exact .inl (heffects _ _ (foreignBlockOn_effects s _) h)
  | select | ready | complete | discard | abort | blockOn | fdDrop =>
    exact .inl ((List.mem_cons.mp h).resolve_left (by simp))
  | _ => exact .inl h

/-- Out of its loop, `run` was told to shut down or has no tasks left. -/
def Leaving (s : Thread V) : Prop :=
  ∀ rest, s.stack = .run .replace :: rest → s.executor.shutdown = true ∨ s.Done s.cur

/-- Nothing is to be shown unless `run` is out of its loop. -/
lemma leaving_of_head (h : ∀ f ∈ s.stack.head?, f ≠ .run .replace) : s.Leaving := fun rest hstack =>
  absurd rfl (h (.run .replace) (by simp [hstack]))

/-- The effects of wakes do not concern a `run` out of its loop. -/
lemma Leaving.effects (h : s.Leaving) (heff : Effects s s') : s'.Leaving := by
  intro rest hstack
  have hs := heff.untouched
  have hshutdown : s'.executor.shutdown = s.executor.shutdown := by
    rw [executor, hs.cur]
    exact hs.shutdown s.cur
  rw [hshutdown, hs.cur]
  exact (h rest (hs.stack ▸ hstack)).imp_right fun hd =>
    hd.later (Effects.later heff) (.inr hs.nTasks)

/-- `run` leaves its loop when it is told to shut down or has no tasks left. -/
lemma Jump.leaving {a : Action V} {f g : Frame} {fs rest : List Frame}
    (hj : Jump s a s' f (g :: fs)) (hstack : s.stack = f :: rest) (h : Reachable step IsStart s)
    (hp : s.panicked = none) (hout : RunsOutside s.stack) :
    (s'.setStack (g :: fs ++ rest)).Leaving := by
  cases hj with
  | afterTaskShutdown hs => exact fun _ _ => .inl hs
  | sleepqEmpty hs =>
    refine fun _ _ => .inr ?_
    have hfront := idle_of_reachable h hp _ _ hstack rfl
    rw [hstack] at hout
    have hrun : s.running = [] := by
      rw [running_cons hstack, hout.1 rfl]
      rfl
    have hd : s.Done s.cur := done_of_empty h hp hfront hs hrun
    exact hd
  | _ => exact leaving_of_head (by simp [Thread.setStack])

/-- `run` leaves its loop when it is told to shut down or has no tasks left. -/
lemma Move.leaving {a : Action V} (hm : Move s a s') (h : Reachable step IsStart s)
    (hp : s.panicked = none) (hp' : s'.panicked = none) (hout : RunsOutside s.stack)
    (hl : s.Leaving) : s'.Leaving := by
  cases hm.top (wf_of_reachable h) hp' with
  | calling hc =>
    refine leaving_of_head fun f hf hr => ?_
    subst hr
    simpa [Frame.calling] using hc _ hf
  | passing hstack hf =>
    refine leaving_of_head fun f hf' hr => ?_
    subst hr
    obtain rfl : _ = Frame.run .replace := by simpa [hstack] using hf'
    simp [Frame.passing] at hf
  | jump hstack hj hs =>
    subst hs
    exact hj.leaving hstack h hp hout
  | foreignUpgrade hs =>
    subst hs
    exact hl
  | @foreignWrite t ha hs =>
    subst hs
    have hl' : ({ s with waking := s.waking.erase t } : Thread V).Leaving := hl
    exact hl'.effects (foreignWrite_effects s t)
  | foreignBlockOn ha hs =>
    subst hs
    exact hl.effects (foreignBlockOn_effects s _)

/-- An executor whose queues are being dropped was being dropped before, or has just been replaced. -/
lemma Move.of_replaced {a : Action V} (hm : Move s a s') {g : Frame} (hg : g ∈ s'.stack) {x : ExecId}
    (hx : g.replaced = some x) : (∃ f ∈ s.stack, f.replaced = some x) ∨
      x = s.cur ∧ (∃ rest, s.stack = .run .replace :: rest) ∧ s'.nTasks = s.nTasks ∧
        (s'.execs s.cur).shutdown = s.executor.shutdown := by
  have hsame : s'.stack = s.stack → ∃ f ∈ s.stack, f.replaced = some x := fun h => ⟨g, h ▸ hg, hx⟩
  have hold : ∀ {f : Frame} (fs : List Frame) {rest : List Frame}, s.stack = f :: rest → s'.stack = fs ++ rest →
      (∀ g ∈ fs, ∀ x, g.replaced = some x → f.replaced = some x) →
        ∃ f ∈ s.stack, f.replaced = some x := by
    intro f fs rest hstack hstack' hfs
    rcases List.mem_append.mp (hstack' ▸ hg) with hg | hg
    · exact ⟨f, by simp [hstack], hfs g hg x hx⟩
    · exact ⟨g, by simp [hstack, hg], hx⟩
  cases hm with
  | stay hu heff => exact .inl (hsame heff.steady.stack)
  | jump hstack hj => exact .inl (hold _ hstack rfl (hj.replaces hstack).replaced)
  | crash heff hp => exact .inl (hsame heff.steady.stack)
  | @selectCrash k f f' rest t hstack hf =>
    refine .inl (hold [f'] hstack rfl ?_)
    rcases Frame.of_loop hf with ⟨rfl, rfl⟩ | ⟨b, rfl, rfl⟩ <;> simp [Frame.replaced]
  | @select k f f' rest t hstack hf =>
    refine .inl (hold [.runTask t .polling, f'] hstack rfl ?_)
    rcases Frame.of_loop hf with ⟨rfl, rfl⟩ | ⟨b, rfl, rfl⟩ <;> simp [Frame.replaced]
  | @repoll k s₁ b pc rest hstack =>
    exact .inl (hold [.blockOn b .polling] hstack rfl (by simp [Frame.replaced]))
  | @pending t rest hstack =>
    exact .inl (hold [.runTask t .settle] hstack rfl (by simp [Frame.replaced]))
  | @ready t rest v hstack =>
    exact .inl (hold [_] hstack rfl (by simp [Frame.replaced]))
  | sleep hstack | close hstack | closure hstack =>
    exact .inl (hold [] hstack rfl (by simp))
  | complete hstack hfs =>
    exact .inl (hold _ hstack rfl (by rcases hfs with rfl | rfl <;> simp [Frame.replaced]))
  | replace hstack =>
    rcases List.mem_cons.mp hg with rfl | hg
    · exact .inr ⟨(Option.some.inj hx).symm, ⟨_, hstack⟩, rfl, by
        simp [Thread.setStack, setExec, executor]⟩
    · exact .inl ⟨g, by simp [hstack, hg], hx⟩
  | @discard k y q t pc rest hstack hq hpc =>
    exact .inl (hold [.run pc] hstack rfl (by
      rcases hpc with rfl | rfl <;> simp [Frame.replaced]))
  | spawn hu => exact .inl (hsame (by rw [Thread.spawn, enqueue_of_not_completed (by simp)]))
  | blockOn | enterPollWith =>
    rcases List.mem_cons.mp hg with rfl | hg
    · simp [Frame.replaced] at hx
    · exact .inl ⟨g, hg, hx⟩
  | fdNew hu => exact .inl (hsame (fdNew_steady s _ _ _ _).stack)
  | fdDrop hu => exact .inl (hsame (fdDrop_steady s _).stack)
  | @foreignWrite t => exact .inl (hsame (foreignWrite_effects s t).steady.stack)
  | foreignBlockOn => exact .inl (hsame (foreignBlockOn_effects s _).steady.stack)
  | abort | handle | shutdown | foreignUpgrade => exact .inl (hsame rfl)

/-- What the end of a call of `run` rests on. -/
structure RunEnds (s : Thread V) : Prop where
  outside : RunsOutside s.stack
  leaving : s.Leaving
  dropping : ∀ f ∈ s.stack, ∀ x, f.replaced = some x → (s.execs x).shutdown = true ∨ s.Done x
  ran : ∀ x, .ran x false ∈ s.log → x < s.cur ∧ s.Done x

/-- A move that does not re-enter `run` keeps what the end of a call of `run` rests on. -/
lemma Move.runEnds {a : Action V} (hm : Move s a s') (h : Reachable step IsStart s)
    (hp : s.panicked = none) (hp' : s'.panicked = none) (hC : NotReentrant s a) (he : s.RunEnds) :
    s'.RunEnds := by
  have hl := hm.later
  have hwf := wf_of_reachable h
  refine ⟨hm.runsOutside hC he.outside, hm.leaving h hp hp' he.outside he.leaving,
    fun g hg x hx => ?_, fun x hx => ?_⟩
  · rcases hm.of_replaced hg hx with ⟨f, hf, hfx⟩ | ⟨rfl, ⟨rest, hstack⟩, hn, hshutdown⟩
    · have hlt := hwf.replaced f hf x hfx
      rw [hl.shutdown x hlt]
      exact (he.dropping f hf x hfx).imp_right fun hd => hd.later hl (.inl hlt.ne)
    · rw [hshutdown]
      exact (he.leaving rest hstack).imp_right fun hd => hd.later hl (.inr hn)
  · rcases hm.of_ran hx with hx | ⟨⟨k, rest, -, hstack⟩, hshutdown, -⟩
    · obtain ⟨hlt, hd⟩ := he.ran x hx
      exact ⟨hlt.trans_le hl.cur, hd.later hl (.inl hlt.ne)⟩
    · have htop : Frame.run (.teardown x) ∈ s.stack := by simp [hstack]
      have hlt := hwf.replaced _ htop x rfl
      have hd := (he.dropping _ htop x rfl).resolve_left (by simp [← hshutdown])
      exact ⟨hlt.trans_le hl.cur, hd.later hl (.inl hlt.ne)⟩

/-- In a panic-free run in which `run` is not re-entered, every task of the current executor that has not
completed, has not been aborted and is not being polled is in exactly one queue, once, and this is the
sleep queue or the run queue of its priority.  So `run` returns `Ok` without having been told to shut
down only after the future of every task of its executor that was not aborted has returned
`Poll::Ready`. -/
theorem tasks_kept (h : ReachableUnder step IsStart NotReentrant s) (hp : s.panicked = none) :
    (∀ t < s.nTasks, (s.tasks t).exec = s.cur → (s.tasks t).hasCompleted = false →
      .aborted t ∉ s.log → t ∉ s.running → ∃ q, (q = .sleepq ∨ q = runq (s.tasks t).priority) ∧
        (s.queues.list (s.cur, q)).count t = 1 ∧ ∀ q', t ∈ s.queues.list q' → q' = (s.cur, q)) ∧
    ∀ x, .ran x false ∈ s.log → ∀ t < s.nTasks, (s.tasks t).exec = x →
      .aborted t ∈ s.log ∨ .ready t ∈ s.log := by
  refine ⟨fun t ht hexec hc hab hrun => ?_, fun x hx t ht hexec => ?_⟩
  · obtain ⟨q, hq, hhome⟩ := exists_queue h.reachable hp ht hexec hc hab hrun
    refine ⟨q, hq, ?_, fun q' hq' => ?_⟩
    · exact List.count_eq_one_of_mem (s.queues.nodup _) ((s.queues.mem_list _ _).mpr hhome)
    · exact Option.some.inj (((s.queues.mem_list _ _).mp hq').symm.trans hhome)
  · have he : s.RunEnds := by
      refine h.invariant (P := fun s => s.panicked = none → s.RunEnds) ?_ ?_ hp
      · rintro s ⟨pipeWr, pipeCapacity, -, rfl⟩ -
        refine ⟨⟨by simp [Frame.isRun], trivial⟩, leaving_of_head (by simp [start]), ?_, ?_⟩ <;>
          simp [start, Frame.replaced]
      · intro s a s' hs ih hC hstep hp
        obtain ⟨hn, hm⟩ := move_of_step hstep
        exact hm.runEnds hs.reachable hn hp hC (ih hn)
    exact ((he.ran x hx).2 t ht hexec).imp_right fun hc =>
      (abs_reached h.reachable).ready_of_completed (.inl hc)

/-- A task runs to completion, `run` ends, and another task is spawned. -/
theorem tasks_kept_over_run : ∃ s : Thread Unit, ReachableUnder step IsStart NotReentrant s ∧
    (∃ q, (q = .sleepq ∨ q = .runqLow) ∧ (s.queues.list (1, q)).count 1 = 1) ∧
      (.aborted 0 ∈ s.log ∨ .ready 0 ∈ s.log) := by
  obtain ⟨s, hs, h⟩ := exists_reachableUnder (V := Unit) NotReentrant
    [.spawn .normal, .run, .go (.ok []), .ready (), .go (.ok []), .go (.ok []), .go (.ok []),
      .go (.ok []), .go (.ok []), .go (.ok []), .replace (some 4), .go (.ok []), .spawn .low]
    (fun s => decide (s.panicked = none ∧ s.nTasks = 2 ∧ s.cur = 1 ∧ (s.tasks 1).exec = 1 ∧
      (s.tasks 1).hasCompleted = false ∧ (s.tasks 1).priority = .low ∧ .aborted 1 ∉ s.log ∧
        s.running = [] ∧ (s.tasks 0).exec = 0 ∧ .ran 0 false ∈ s.log)) (by decide)
  obtain ⟨hp, hn, hcur, hexec, hc, hprio, hab, hrun, hexec0, hran⟩ := of_decide_eq_true h
  obtain ⟨hqueue, hready⟩ := tasks_kept hs hp
  obtain ⟨q, hq, hcount, -⟩ := hqueue 1 (by simp [hn]) (hexec.trans hcur.symm) hc hab (by simp [hrun])
  rw [hcur] at hcount
  rw [hprio] at hq
  exact ⟨s, hs, ⟨q, hq, hcount⟩, hready 0 hran 0 (by simp [hn]) hexec0⟩

end Thread

end Epox

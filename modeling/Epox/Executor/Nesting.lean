import Epox.Executor.Queueing
import Epox.Executor.Shutdown

/-!
# Tasks being polled

A task that calls `block_on`, or `run`, from inside its poll enters a loop while its own future is still
mutably borrowed.  Its wakers go on working meanwhile: `enqueue` does not look at the borrow, so the task gets
into its run queue again when one of its wakers is invoked on this thread, when `epoll_wait` reports an event
of an `Fd` that holds one, or when its pointer is read from the pipe (`reached_of_polled`).  The loop then
takes it like any other task, and `run_task` panics.

A call of `Handle::result` or `Handle::poll` for a task whose poll is on the stack always panics.
-/

namespace Epox

namespace Thread

variable {V : Type} {s s' : Thread V}

/-! ## Borrowed tasks -/

/-- A task that is borrowed is on the stack. -/
lemma Wf.running_of_borrowed (h : s.Wf) {t : TaskId} (hb : (s.tasks t).borrowed = true) :
    t ∈ s.running := by
  obtain ⟨g, hg, hgt⟩ := List.mem_filterMap.mp ((h.borrowed t).mp hb)
  exact List.mem_filterMap.mpr ⟨g, hg, Frame.held_of_borrows hgt⟩

/-- While code of the caller runs, the tasks on the stack are borrowed. -/
lemma Wf.borrowed_of_inUserCode (h : s.Wf) (hu : s.inUserCode = true) {t : TaskId}
    (ht : t ∈ s.running) : (s.tasks t).borrowed = true := by
  obtain ⟨f, rest, hstack, hf⟩ := exists_of_inUserCode hu
  obtain ⟨g, hg, hgt⟩ := List.mem_filterMap.mp ht
  have hc : g.calling = true := by
    rcases List.mem_cons.mp (hstack ▸ hg) with rfl | hg
    · exact hf
    · exact h.calling g (by simpa [hstack] using hg)
  exact (h.borrowed t).mpr (List.mem_filterMap.mpr ⟨g, hg, Frame.borrows_of_held hgt hc⟩)

/-- A call of the handle of a task panics exactly if the poll of the task is on the stack. -/
lemma panicked_of_handle (h : s.Wf) {a : Action V} {t : TaskId}
    (ha : a = .handleResult t ∨ ∃ w, a = .handlePoll t w) (hs : s.step a = some s') :
    s'.panicked = none ↔ t ∉ s.running := by
  have hborrowed : s.inUserCode = true → (t ∈ s.running ↔ (s.tasks t).borrowed = true) := fun hu =>
    ⟨h.borrowed_of_inUserCode hu, h.running_of_borrowed⟩
  obtain ⟨hn, hacts⟩ := acts_of_step hs
  rcases ha with rfl | ⟨w, rfl⟩
  · cases hacts with
    | handleResult _ hu hh =>
      rw [hborrowed hu]
      unfold handleResult
      split_ifs with hb
      · simp [Thread.panic, hb]
      · simp [setTask, hn, hb]
  · cases hacts with
    | handlePoll _ _ hu hh =>
      rw [hborrowed hu]
      unfold handlePoll
      split_ifs with hb
      · simp [Thread.panic, hb]
      · split <;> simp [setTask, hn, hb]

/-! ## How a task being polled gets into a queue -/

/-- A task whose poll is on the stack gets into a queue only if the step aims at it, or when its poll is over
and it goes to sleep. -/
lemma reached_of_polled (h : s.Wf) {a : Action V} {t : TaskId} (hs : s.step a = some s')
    (hp : s'.panicked = none) (ht : t ∈ s.running) (hhome : s'.queues.home t ≠ none)
    (hnew : s'.queues.home t ≠ s.queues.home t) :
    t ∈ s.reached a ∨ ∃ rest, s.stack = .runTask t .settle :: rest := by
  rcases home_of_step hs hp t with hafter | ⟨-, hnone | rfl | hsettle⟩
  · left
    by_contra hnot
    refine hnew ?_
    rw [hafter, homeAfter, if_neg fun hl => hnot hl.1]
  · exact absurd hnone hhome
  · exact absurd (h.ids _ (alive_of_running ht)) (lt_irrefl _)
  · exact .inr hsettle

/-! ## Nested loops -/

/-- A loop on top of the stack takes the next task. -/
def selects (s : Thread V) : Bool :=
  match s.stack with
  | .run .select :: _ | .blockOn _ .select :: _ => true
  | _ => false

/-- A loop that takes the next task. -/
lemma selects_iff : s.selects = true ↔ ∃ f f' rest, s.stack = f :: rest ∧ f.loop = some f' := by
  constructor
  · intro hs
    unfold selects at hs
    split at hs
    · rename_i rest hstack
      exact ⟨_, _, rest, hstack, rfl⟩
    · rename_i b rest hstack
      exact ⟨_, _, rest, hstack, rfl⟩
    · simp at hs
  · rintro ⟨f, f', rest, hstack, hf⟩
    rcases Frame.of_loop hf with ⟨rfl, -⟩ | ⟨b, rfl, -⟩ <;> simp [selects, hstack]

/-- When a loop takes the next task, no task whose poll is on the stack is in a run queue of the executor:
none has been enqueued there since its poll began, or it has been taken out again. -/
def LeavesPolled (s : Thread V) : Action V → Prop
  | .go _ => s.selects = true → ∀ t ∈ s.running, ¬ s.runnable t
  | _ => True

instance (s : Thread V) : (a : Action V) → Decidable (LeavesPolled s a)
  | .go _ => inferInstanceAs (Decidable (s.selects = true → ∀ t ∈ s.running, ¬ s.runnable t))
  | .handleResult _ | .handlePoll _ _ | .replace _ | .spawn _ | .wake _ _ | .abort _ | .dropHandle _
  | .shutdown | .run | .blockOn | .pending | .ready _ | .finish | .fdNew _ _ _ _ | .fdDrop _
  | .pollWith _ _ _ | .closure _ | .foreignUpgrade _ | .foreignWrite _ | .foreignBlockOn _ => .isTrue trivial

/-- The front of the run queues is in the run queue of its priority. -/
lemma runnable_of_front (h : Reachable step IsStart s) {u : TaskId} (hfront : s.front = some u) :
    s.runnable u := by
  obtain ⟨p, hp⟩ := home_of_front hfront
  have hmem : u ∈ s.queues.list (s.cur, runq p) := (s.queues.mem_list _ u).mpr hp
  exact ((abs_reached h).placed.runnable_of_mem hmem).1

/-- In a step that leaves the tasks alone that are being polled, `run_task` does not panic. -/
lemma Move.not_taskBorrowed {a : Action V} (hm : Move s a s') (h : Reachable step IsStart s)
    (hC : LeavesPolled s a) (hn : s.panicked = none) (t : TaskId) :
    s'.panicked ≠ some (.taskBorrowed t) := by
  intro hp
  have hwf := wf_of_reachable h
  cases hm with
  | stay hu heff => simp [heff.steady.panicked, hn] at hp
  | jump hstack hj =>
    have := hj.effects.steady.panicked
    simp [Thread.setStack, this, hn] at hp
  | crash heff hcrash =>
    obtain rfl := Option.some.inj hp
    simpa using (hcrash t rfl).1
  | @selectCrash k f f' rest u hstack hf hfront hb =>
    have hrun := hwf.running_of_borrowed hb
    exact hC (selects_iff.mpr ⟨f, f', rest, hstack, hf⟩) u hrun (runnable_of_front h hfront)
  | repoll hstack hpc heff => simp [emit, Thread.setStack, heff.steady.panicked, hn] at hp
  | spawn hu =>
    rw [Thread.spawn, enqueue_of_not_completed (by simp)] at hp
    simp [hn] at hp
  | fdNew hu => simp [(fdNew_steady s _ _ _ _).panicked, hn] at hp
  | fdDrop hu hlive => simp [(fdDrop_steady s _).panicked, hn] at hp
  | foreignWrite => simp [(foreignWrite_effects s _).steady.panicked, hn] at hp
  | foreignBlockOn => simp [(foreignBlockOn_effects s _).steady.panicked, hn] at hp
  | _ => exact absurd (hn.symm.trans hp) (by simp)

/-- In every run in which no loop takes a task while one whose poll is on the stack is in a run queue, no task
that is being polled is handed to `run_task`.  A call of `Handle::result` or `Handle::poll` panics exactly if
the poll of its task is on the stack. -/
theorem polled_task_left_alone (h : ReachableUnder step IsStart LeavesPolled s) :
    (∀ t, s.panicked ≠ some (.taskBorrowed t)) ∧
    ∀ a t s', (a = .handleResult t ∨ ∃ w, a = .handlePoll t w) → s.step a = some s' →
      (s'.panicked = none ↔ t ∉ s.running) := by
  refine ⟨fun t => ?_, fun a t s' ha hs => panicked_of_handle (wf_of_reachable h.reachable) ha hs⟩
  refine h.invariant (P := fun s => s.panicked ≠ some (.taskBorrowed t)) ?_ ?_
  · rintro s ⟨pipeWr, pipeCapacity, -, rfl⟩
    simp [start]
  · intro s a s' hs _ hC hstep
    obtain ⟨hn, hm⟩ := move_of_step hstep
    exact hm.not_taskBorrowed hs.reachable hC hn t

/-- A task runs another one in a nested `block_on`, and calls the handles of both. -/
theorem polled_task_left_alone_in_blockOn : ∃ s : Thread Unit,
    ReachableUnder step IsStart LeavesPolled s ∧ s.running = [1, 0] ∧
      (∀ t, s.panicked ≠ some (.taskBorrowed t)) ∧
        ∃ s', s.step (.handleResult 0) = some s' ∧ s'.panicked ≠ none := by
  obtain ⟨s, hs, h⟩ := exists_reachableUnder (V := Unit) LeavesPolled
    [.spawn .normal, .spawn .normal, .run, .go (.ok []), .blockOn, .handleResult 1, .pending,
      .go (.ok [])] (fun s => decide (s.running = [1, 0]) && (s.step (.handleResult 0)).isSome) (by decide)
  obtain ⟨hrun, hsome⟩ := Bool.and_eq_true_iff.mp h
  have hrun := of_decide_eq_true hrun
  obtain ⟨s', hs'⟩ := Option.isSome_iff_exists.mp hsome
  obtain ⟨hpop, hhandle⟩ := polled_task_left_alone hs
  refine ⟨s, hs, hrun, hpop, s', hs', fun hn => ?_⟩
  exact (hhandle _ 0 s' (.inl rfl) hs').mp hn (by simp [hrun])

/-- A task that wakes itself and then calls `block_on` is taken from its run queue while it is being polled;
the handle of a task that is being polled panics. -/
theorem polled_task_taken :
    (∃ s : Thread Unit, Reachable step IsStart s ∧ 0 ∈ s.running ∧ s.panicked = some (.taskBorrowed 0)) ∧
    ∃ s : Thread Unit, Reachable step IsStart s ∧ 0 ∈ s.running ∧ s.panicked = some (.resultBorrowed 0) := by
  constructor
  · obtain ⟨s, hs, h⟩ := exists_reachable (V := Unit)
      [.spawn .normal, .run, .go (.ok []), .wake (.task 0) (.ok []), .blockOn, .pending, .go (.ok [])]
      (fun s => decide (0 ∈ s.running ∧ s.panicked = some (.taskBorrowed 0))) (by decide)
    exact ⟨s, hs, of_decide_eq_true h⟩
  · obtain ⟨s, hs, h⟩ := exists_reachable (V := Unit)
      [.spawn .normal, .run, .go (.ok []), .handleResult 0]
      (fun s => decide (0 ∈ s.running ∧ s.panicked = some (.resultBorrowed 0))) (by decide)
    exact ⟨s, hs, of_decide_eq_true h⟩

/-! ## A loop that takes a task while a task being polled is queued -/

/-- A loop takes the front of the run queues. -/
lemma step_select {u : TaskId} {f f' : Frame} {rest : List Frame} (k : KernelAnswer) (hk : s.answers k)
    (hn : s.panicked = none) (hstack : s.stack = f :: rest) (hf : f.loop = some f')
    (hfront : s.front = some u) :
    s.step (.go k) = some ((({ s with queues := s.queues.release u } : Thread V).setStack
      (f' :: rest)).runTask u) := by
  rcases Frame.of_loop hf with ⟨rfl, rfl⟩ | ⟨b, rfl, rfl⟩
  · simp [step, hn, act, hk, go, hstack, goRun, highestPriorityRunnableTask_eq, hfront]
  · simp [step, hn, act, hk, go, hstack, goBlockOn, highestPriorityRunnableTask_eq, hfront]

/-- One thing after another happens. -/
def Leads (s s' : Thread V) : Prop := ∃ a, s.step a = some s'

/-- If a task whose poll is on the stack is in a run queue, a loop gets to it: the tasks before it call
`block_on` in their polls. -/
lemma taskBorrowed_of_selects (h : Reachable step IsStart s) (hn : s.panicked = none)
    (hs : s.selects = true) {t : TaskId} (ht : t ∈ s.running) (hrun : s.runnable t) :
    ∃ s' u, Relation.ReflTransGen Leads s s' ∧ s'.panicked = some (.taskBorrowed u) := by
  -- By induction on the number of queued tasks, each of which is taken out before the next one.
  induction hq : s.queued s.cur using Nat.strong_induction_on generalizing s with
  | _ n ih =>
    obtain ⟨f, f', rest, hstack, hf⟩ := selects_iff.mp hs
    obtain ⟨u, hfront⟩ := exists_front hrun
    have hstep := step_select (.error .other) trivial hn hstack hf hfront
    have hwf := wf_of_reachable h
    by_cases hu : u ∈ s.running
    · have hb : (s.tasks u).borrowed = true := (hwf.running_iff_borrowed hstack hf).mp hu
      refine ⟨_, u, .single ⟨_, hstep⟩, ?_⟩
      simp [runTask, setStack, hb, Thread.panic]
    · have hb : (s.tasks u).borrowed = false := by
        simpa using fun hb => hu ((hwf.running_iff_borrowed hstack hf).mpr hb)
      have hne : t ≠ u := fun hne => hu (hne ▸ ht)
      obtain ⟨p, hhome⟩ := home_of_front hfront
      let s₁ : Thread V := ((({ s with queues := s.queues.release u } : Thread V).setTask u
        { s.tasks u with borrowed := true }).setStack (.runTask u .polling :: f' :: rest)).emit (.polled u)
      let s₂ : Thread V := s₁.enterBlockOn
      let s₃ : Thread V := s₂.setStack (.blockOn s₁.nBlockOns .select :: s₁.stack)
      have hpoll : s.step (.go (.error .other)) = some s₁ := by
        rw [hstep]
        simp [runTask, setStack, hb, s₁, setTask]
      have henter : s₁.step .blockOn = some s₂ := by
        simp [step, act, call, inUserCode, s₁, s₂, emit, setStack, setTask, hn]
      have hpending : s₂.step .pending = some s₃ := by
        simp [step, act, Thread.pending, s₁, s₂, s₃, enterBlockOn, emit, setStack, setTask, hn]
      have hlt : s₃.queued s₃.cur < n := hq ▸ queued_release_lt hhome rfl
      have hreach : Reachable step IsStart s₃ :=
        .next (.next (.next h trivial hpoll) trivial henter) trivial hpending
      have ht₃ : t ∈ s₃.running := by
        have hrest : t ∈ rest.filterMap Frame.held := by
          rw [running_cons hstack] at ht
          rcases Frame.of_loop hf with ⟨rfl, -⟩ | ⟨b, rfl, -⟩ <;> simpa [Frame.held] using ht
        have hstack₃ : s₃.stack =
            .blockOn s₁.nBlockOns .select :: .runTask u .polling :: f' :: rest := rfl
        rw [running_cons hstack₃]
        refine List.mem_append_right _ (List.mem_cons_of_mem _ ?_)
        exact ((List.sublist_cons_self f' rest).filterMap Frame.held).subset hrest
      have hrun₃ : s₃.runnable t := by
        have htask : s₃.tasks t = s.tasks t := Function.update_of_ne hne ..
        have hhome₃ : s₃.queues.home t = s.queues.home t := by
          exact (Family.home_release ..).trans (if_neg hne)
        rw [runnable, hhome₃, htask]
        exact hrun
      obtain ⟨s', v, hgo, hp⟩ := ih _ hlt hreach hn rfl ht₃ hrun₃ rfl
      exact ⟨s', v, .head ⟨_, hpoll⟩ (.head ⟨_, henter⟩ (.head ⟨_, hpending⟩ hgo)), hp⟩

/-- A step that does not leave the tasks alone that are being polled can be the beginning of a run in which
one of them is handed to `run_task`. -/
theorem taskBorrowed_of_not_leavesPolled (h : Reachable step IsStart s) (hn : s.panicked = none)
    {a : Action V} (hC : ¬ LeavesPolled s a) :
    ∃ s' u, Relation.ReflTransGen Leads s s' ∧ s'.panicked = some (.taskBorrowed u) := by
  cases a with
  | go k =>
    simp only [LeavesPolled, not_forall, not_not] at hC
    obtain ⟨hs, t, ht, hrun⟩ := hC
    exact taskBorrowed_of_selects h hn hs ht hrun
  | _ => exact absurd trivial hC

end Thread

end Epox

import Epox.Executor.Exit

/-!
# Where the last reference to a task is released

The thread that spawned a task holds references to it in its queues, in activations of `run_task` and in
its `Handle`; any other thread that wakes the task or clones a waker of it holds one from the upgrade of
its weak pointer to the end of the call.  Whoever releases the last reference drops the future and the
output.  `Life.step` is the machine of a thread from its start to the end of its exit, together with these
other threads.

The last reference is released by the thread that spawned the task in every run in which that thread never
gives up its own last reference while another thread holds one (`last_released_at_home`).
-/

namespace Epox

/-! ## The references of the thread itself -/

namespace Thread

variable {V : Type} {s s' : Thread V} {t : TaskId}

/-- The thread itself holds a reference to the task: a queue, its `Handle`, or an activation of
`run_task`. -/
def Owned (s : Thread V) (t : TaskId) : Prop :=
  s.queues.home t ≠ none ∨ (s.tasks t).handle = true ∨ t ∈ s.running

instance (s : Thread V) (t : TaskId) : Decidable (s.Owned t) := by
  unfold Owned
  infer_instance

/-- A task is alive if the thread itself or another thread holds a reference to it. -/
lemma alive_iff_owned : s.alive t = true ↔ s.Owned t ∨ t ∈ s.waking := by
  rw [alive_iff, Owned, or_assoc, or_assoc]

/-- The thread gives up its last reference to the task: it drops the handle, completes the task, or takes
it out of a queue of a replaced executor, and has no other reference to it. -/
def GivesUp (s : Thread V) : Action V → TaskId → Prop
  | .dropHandle u, t => u = t ∧ s.queues.home t = none ∧ t ∉ s.running
  | .go _, t =>
    match s.stack with
    | .runTask u .complete :: _ => u = t ∧ s.queues.home t = none ∧ (s.tasks t).handle = false
    | .run (.teardown x) :: _ =>
      (s.popReplaced x).map Prod.fst = some t ∧ (s.tasks t).handle = false ∧ t ∉ s.running
    | _ => False
  | _, _ => False

instance (s : Thread V) (t : TaskId) : (a : Action V) → Decidable (s.GivesUp a t)
  | .dropHandle u => inferInstanceAs (Decidable (u = t ∧ s.queues.home t = none ∧ t ∉ s.running))
  | .go _ => by
    dsimp only [GivesUp]
    split <;> infer_instance
  | .replace _ | .spawn _ | .wake _ _ | .abort _ | .handleResult _ | .handlePoll _ _ | .shutdown | .run
  | .blockOn | .pending | .ready _ | .finish | .fdNew _ _ _ _ | .fdDrop _ | .pollWith _ _ _ | .closure _
  | .foreignUpgrade _ | .foreignWrite _ | .foreignBlockOn _ => .isFalse id

end Thread

namespace Exiting

variable {V : Type}

/-- The exiting thread gives up its last reference to the task. -/
def GivesUp (e : Exiting V) : ExitAction V → TaskId → Prop
  | .own (.dropHandle u), t => u = t ∧ e.thread.queues.home t = none ∧ t ∉ e.thread.running
  | .own (.go _), t =>
    (e.thread.popReplaced e.thread.cur).map Prod.fst = some t ∧ (e.thread.tasks t).handle = false ∧
      t ∉ e.thread.running
  | _, _ => False

instance (e : Exiting V) (t : TaskId) : (a : ExitAction V) → Decidable (e.GivesUp a t)
  | .own (.dropHandle u) =>
    inferInstanceAs (Decidable (u = t ∧ e.thread.queues.home t = none ∧ t ∉ e.thread.running))
  | .own (.go _) =>
    inferInstanceAs (Decidable ((e.thread.popReplaced e.thread.cur).map Prod.fst = some t ∧
      (e.thread.tasks t).handle = false ∧ t ∉ e.thread.running))
  | .wakeElsewhere _ | .own (.replace _) | .own (.spawn _) | .own (.wake _ _) | .own (.abort _)
  | .own (.handleResult _) | .own (.handlePoll _ _) | .own .shutdown | .own .run | .own .blockOn
  | .own .pending | .own (.ready _) | .own .finish | .own (.fdNew _ _ _ _) | .own (.fdDrop _)
  | .own (.pollWith _ _ _) | .own (.closure _) | .own (.foreignUpgrade _) | .own (.foreignWrite _)
  | .own (.foreignBlockOn _) => .isFalse id

end Exiting

/-! ## The life of a thread -/

/-- A thread that runs or exits. -/
inductive Life (V : Type)
  | running (s : Thread V)
  | exiting (e : Exiting V)

/-- What the environment of a thread decides about its next step. -/
inductive LifeAction (V : Type)
  | run (a : Action V)
  /-- The thread has returned from its own code and its executor is destroyed. -/
  | exit
  | drop (a : ExitAction V)
  /-- Another thread that clones a waker of a task has upgraded its reference (`foreignUpgrade`) and
  releases it. -/
  | cloned (t : TaskId)

/-- Another thread acts. -/
def LifeAction.isForeign {V : Type} : LifeAction V → Bool
  | .run a => a.isForeign
  | .drop (.own a) => a.isForeign
  | .cloned _ => true
  | _ => false

namespace Life

variable {V : Type}

/-- The memory of the thread. -/
def memory : Life V → Thread V
  | .running s => s
  | .exiting e => e.thread

/-- The thread has panicked. -/
def hasPanicked : Life V → Bool
  | .running s => s.panicked.isSome
  | .exiting e => e.denied || e.thread.panicked.isSome

/-- Change the memory. -/
def withMemory (s : Thread V) : Life V → Life V
  | .running _ => .running s
  | .exiting e => .exiting (e.within s)

/-- One step of a thread. -/
def step (p : Life V) (a : LifeAction V) : Option (Life V) :=
  match a, p with
  | .run a, .running s => (s.step a).map .running
  | .exit, .running s => if s.stack = [.user] ∧ s.panicked = none then some (.exiting s.exit) else none
  | .drop a, .exiting e => (e.step a).map .exiting
  | .cloned t, p =>
    if t ∈ p.memory.waking ∧ p.hasPanicked = false then
      some (p.withMemory { p.memory with waking := p.memory.waking.erase t })
    else
      none
  | _, _ => none

/-- A thread at its start. -/
def IsStart (p : Life V) : Prop := ∃ s : Thread V, s.IsStart ∧ p = .running s

/-- The thread gives up its last reference to the task. -/
def GivesUp : Life V → LifeAction V → TaskId → Prop
  | .running s, .run a, t => s.GivesUp a t
  | .exiting e, .drop a, t => e.GivesUp a t
  | _, _, _ => False

instance (p : Life V) (a : LifeAction V) (t : TaskId) : Decidable (p.GivesUp a t) := by
  unfold GivesUp
  split <;> infer_instance

/-- The thread does not give up its last reference to a task to which another thread holds one. -/
def Outlives (p : Life V) (a : LifeAction V) : Prop :=
  ∀ t ∈ p.memory.waking, ¬ p.GivesUp a t

instance (p : Life V) (a : LifeAction V) : Decidable (Outlives p a) := by
  unfold Outlives
  infer_instance

end Life

/-! ## The references that a step leaves -/

namespace Thread

variable {V : Type} {s s' : Thread V} {t : TaskId}

/-- A wake moves a task at most to the run queue of its priority. -/
lemma Effect.home_eq (h : Effect s s') (t : TaskId) : s'.queues.home t = s.queues.home t ∨
    s'.queues.home t = some (s.cur, runq (s.tasks t).priority) := by
  have hpush : ∀ u, (s.queues.push (s.cur, runq (s.tasks u).priority) u).home t = s.queues.home t ∨
      (s.queues.push (s.cur, runq (s.tasks u).priority) u).home t =
        some (s.cur, runq (s.tasks t).priority) := fun u => by
    by_cases ht : t = u
    · subst ht
      simp
    · simp [Family.home_push, ht]
  cases h with
  | @receive u rest hpipe halive hc =>
    rw [enqueue_of_not_completed (by exact hc)]
    exact hpush u
  | @enqueue u halive hc =>
    rw [enqueue_of_not_completed hc]
    exact hpush u
  | _ => exact .inl rfl

/-- Wakes move a task at most to the run queue of its priority. -/
lemma Effects.home_eq (h : Effects s s') (t : TaskId) : s'.queues.home t = s.queues.home t ∨
    s'.queues.home t = some (s.cur, runq (s.tasks t).priority) := by
  induction h with
  | refl => exact .inl rfl
  | tail hr h ih =>
    have hsteady := Effects.steady hr
    rcases h.home_eq t with heq | heq
    · rw [heq]
      exact ih
    · exact .inr (by rw [heq, hsteady.cur, hsteady.tasks])

/-- Wakes leave the thread its references. -/
lemma Effects.owned (h : Effects s s') (ho : s.Owned t) : s'.Owned t := by
  have hsteady := h.steady
  rcases ho with hq | hh | hr
  · rcases h.home_eq t with heq | heq
    · exact .inl (heq ▸ hq)
    · exact .inl (by simp [heq])
  · exact .inr (.inl (hsteady.tasks ▸ hh))
  · exact .inr (.inr (by rwa [running, hsteady.stack]))

/-- References are kept if the tasks and the queues are, and the stack. -/
lemma owned_of_eq (hqueues : s'.queues = s.queues) (htasks : s'.tasks = s.tasks)
    (hstack : s'.running = s.running) (ho : s.Owned t) : s'.Owned t := by
  unfold Owned at *
  rwa [hqueues, htasks, hstack]

/-- Wherever library code goes on, the thread keeps its references. -/
lemma Jump.owned {a : Action V} {f : Frame} {fs rest : List Frame} (h : Jump s a s' f fs)
    (hstack : s.stack = f :: rest) (ho : s.Owned t) : (s'.setStack (fs ++ rest)).Owned t := by
  have ho' := h.effects.owned ho
  have hstack' : s'.stack = f :: rest := h.effects.steady.stack.trans hstack
  have hrun : fs.filterMap Frame.held = f.held.toList → (s'.setStack (fs ++ rest)).Owned t := by
    intro hheld
    refine owned_of_eq (s := s') rfl rfl ?_ ho'
    simp only [running, setStack, List.filterMap_append, hheld, hstack']
    cases hf : f.held <;> simp [hf]
  cases h with
  | settled hq =>
    rename_i u
    by_cases ht : t = u
    · subst ht
      exact .inl (by simpa [isQueued, setStack, Option.isSome_iff_ne_none] using hq)
    · rcases ho' with hq | hh | hr
      · exact .inl hq
      · exact .inr (.inl hh)
      · exact .inr (.inr (by simpa [running, hstack', setStack, Frame.held, ht] using hr))
  | handleWake hpc heff => rcases hpc with rfl | rfl <;> exact hrun rfl
  | enterRun hu =>
    refine owned_of_eq (s := s) rfl rfl ?_ ho'
    have hnone : Frame.held (.run .select) = none := rfl
    simp only [running, setStack, hstack, List.filterMap_append, List.filterMap_cons_none hnone]
    exact (List.filterMap_append (l := [f])).symm
  | _ => exact hrun rfl

/-- Changing a task but not whether its handle exists. -/
lemma handle_setTask {u : TaskId} {task : ExecutorTask V} (h : task.handle = (s.tasks u).handle) :
    ((s.setTask u task).tasks t).handle = (s.tasks t).handle := by
  by_cases hu : t = u
  · simp [setTask, hu, h]
  · simp [setTask, hu]

/-- Library code drops no handle. -/
lemma handle_of_go {k : KernelAnswer} (h : s.go k = some s') :
    (s'.tasks t).handle = (s.tasks t).handle := by
  have hnot := inUserCode_of_go h
  have heffects : ∀ s₁, Effects s s₁ → (s₁.tasks t).handle = (s.tasks t).handle := fun s₁ heff => by
    rw [heff.steady.tasks]
  cases move_of_go h with
  | stay hu heff => simp [hnot] at hu
  | handle hu => simp [hnot] at hu
  | @jump _ s₁ _ _ _ hstack hj => exact heffects s₁ hj.effects
  | @crash _ s₁ _ heff hp => exact heffects s₁ heff
  | @repoll _ s₁ _ _ _ hstack hpc heff => exact heffects s₁ heff
  | select => exact handle_setTask rfl
  | complete => exact handle_setTask rfl
  | selectCrash | sleep | discard | close => rfl

/-- Only dropping it makes a handle disappear. -/
lemma handle_of_step {a : Action V} (h : s.step a = some s') (hh : (s.tasks t).handle = true) :
    (s'.tasks t).handle = true ∨ a = .dropHandle t := by
  have hsteady : ∀ s₁ : Thread V, Steady s s₁ → (s₁.tasks t).handle = true := fun s₁ hs₁ => by
    rwa [hs₁.tasks]
  have hout : ∀ o : Outcome V, Effects s o.memory → (o.thread.tasks t).handle = true := fun o heff => by
    rcases outcome_thread o with ⟨-, ho⟩ | ⟨p, -, ho⟩ <;> rw [ho] <;>
      exact hsteady o.memory heff.steady
  cases (acts_of_step h).2 with
  | go k hk hgo => exact .inl ((handle_of_go hgo).trans hh)
  | spawn priority =>
    rw [Thread.spawn, enqueue_of_not_completed (by simp)]
    by_cases ht : t = s.nTasks
    · simp [ht]
    · simp [ht, hh]
  | wake w k => exact .inl (hout _ (wake_effects s k w))
  | handleResult u =>
    unfold handleResult
    split_ifs
    · exact .inl hh
    · exact .inl ((handle_setTask (by rfl)).trans hh)
  | handlePoll u w =>
    unfold handlePoll
    split_ifs
    · exact .inl hh
    · left
      split
      · exact (handle_setTask (by rfl)).trans hh
      · exact (handle_setTask (by rfl)).trans hh
  | dropHandle u =>
    by_cases ht : t = u
    · exact .inr (by rw [ht])
    · exact .inl (by simp [setTask, ht, hh])
  | pending | ready => exact .inl ((handle_setTask (by rfl)).trans hh)
  | fdNew raw events fcntl ctl => exact .inl (hsteady _ (fdNew_steady s raw events fcntl ctl))
  | fdDrop f => exact .inl (hsteady _ (fdDrop_steady s f))
  | pollWith f cx k =>
    simp only [pollWith]
    split_ifs
    · exact .inl hh
    · left
      split
      · exact hh
      · exact hout _ (.head .setWaker (wake_effects _ k cx))
      · exact hh
  | foreignWrite u =>
    have htasks := (foreignWrite_effects s u).steady.tasks
    exact .inl (htasks ▸ hh)
  | foreignBlockOn b => exact .inl (hsteady _ (foreignBlockOn_effects s b).steady)
  | _ => exact .inl hh

/-- A step that drops the queues of a replaced executor takes at most the next task out of them. -/
lemma queues_of_teardown {k : KernelAnswer} {x : ExecId} {rest : List Frame}
    (hstack : s.stack = .run (.teardown x) :: rest) (h : s.step (.go k) = some s') :
    (∃ u, (s.popReplaced x).map Prod.fst = some u ∧ s'.queues = s.queues.release u) ∨
      s'.queues = s.queues := by
  have hgo := (go_of_step h).2
  simp only [go, hstack, goRun] at hgo
  split at hgo
  · rename_i u s₁ hpop
    obtain ⟨-, hs₁⟩ := popReplaced_eq_some hpop
    have hqueues : s₁.queues = s.queues.release u := by rw [hs₁]
    obtain rfl := Option.some.inj hgo
    refine .inl ⟨u, by simp [hpop], ?_⟩
    split_ifs
    · exact hqueues
    · exact hqueues
  · exact .inr (Option.some.inj hgo ▸ rfl)

/-- A task that the top of the stack does not hold is held by the rest of it. -/
lemma mem_rest_of_running {f : Frame} {rest : List Frame} (hstack : s.stack = f :: rest)
    (hf : f.held ≠ some t) (h : t ∈ s.running) : t ∈ rest.filterMap Frame.held := by
  rw [running_cons hstack] at h
  simpa [hf] using h

/-- Polling the next task turns the reference of its queue into one of `run_task`. -/
lemma Owned.poll {f f' : Frame} {rest : List Frame} {u : TaskId} (ho : s.Owned t)
    (hstack : s.stack = f :: rest) (hf : f.loop = some f') (hqueues : s'.queues = s.queues.release u)
    (hhandle : (s'.tasks t).handle = (s.tasks t).handle)
    (hstack' : s'.stack = .runTask u .polling :: f' :: rest) : s'.Owned t := by
  have hheld : f.held = none ∧ f'.held = none := by
    rcases Frame.of_loop hf with ⟨rfl, rfl⟩ | ⟨b, rfl, rfl⟩ <;> exact ⟨rfl, rfl⟩
  have hrunning : s'.running = u :: rest.filterMap Frame.held := by
    rw [running_cons hstack', List.filterMap_cons_none hheld.2]
    rfl
  by_cases ht : t = u
  · exact .inr (.inr (by simp [hrunning, ht]))
  · rcases ho with h | h | h
    · exact .inl (by rwa [hqueues, Family.home_release, if_neg ht])
    · exact .inr (.inl (hhandle.trans h))
    · have hrest := mem_rest_of_running hstack (by simp [hheld.1]) h
      exact .inr (.inr (hrunning ▸ List.mem_cons_of_mem u hrest))

/-- A task that goes to sleep turns the reference of `run_task` into one of the queue. -/
lemma Owned.sleep {rest : List Frame} {u : TaskId} (ho : s.Owned t)
    (hstack : s.stack = .runTask u .settle :: rest) : ((s.sleep u).setStack rest).Owned t := by
  by_cases ht : t = u
  · exact .inl (by simp [setStack, Thread.sleep, ht])
  · rcases ho with h | h | h
    · exact .inl (by simpa [setStack, Thread.sleep, Family.home_push, ht] using h)
    · exact .inr (.inl h)
    · exact .inr (.inr (mem_rest_of_running hstack (by simp [Frame.held, Ne.symm ht]) h))

/-- A call of `run_task` that completes its task gives up its reference. -/
lemma Owned.complete {k : KernelAnswer} {fs rest : List Frame} {u : TaskId} (ho : s.Owned t)
    (hstack : s.stack = .runTask u .complete :: rest) (hqueues : s'.queues = s.queues)
    (hhandle : (s'.tasks t).handle = (s.tasks t).handle) (hstack' : s'.stack = fs ++ rest) :
    s'.Owned t ∨ s.GivesUp (.go k) t := by
  by_cases ht : t = u
  · subst ht
    by_cases hother : s.queues.home t = none ∧ (s.tasks t).handle = false
    · exact .inr (by simp [GivesUp, hstack, hother])
    · left
      rcases not_and_or.mp hother with hq | hh
      · exact .inl (hqueues ▸ hq)
      · exact .inr (.inl (hhandle.trans (Bool.of_not_eq_false hh)))
  · left
    rcases ho with h | h | h
    · exact .inl (hqueues ▸ h)
    · exact .inr (.inl (hhandle.trans h))
    · have hrest := mem_rest_of_running hstack (by simp [Frame.held, Ne.symm ht]) h
      refine .inr (.inr ?_)
      rw [running, hstack', List.filterMap_append]
      exact List.mem_append_right _ hrest

/-- In every step that does not panic the thread keeps a reference to every task, or gives up its last
one. -/
lemma owned_of_step {a : Action V} (h : s.step a = some s') (hp : s'.panicked = none) (ho : s.Owned t) :
    s'.Owned t ∨ s.GivesUp a t := by
  have hhandle := handle_of_step (t := t) h
  -- Reading the references of a step that leaves the queues and the stack alone.
  have hsame : s'.queues.home t = s.queues.home t → s'.running = s.running →
      s'.Owned t ∨ s.GivesUp a t := by
    intro hq hr
    rcases ho with h | h | h
    · exact .inl (.inl (hq ▸ h))
    · rcases hhandle h with h | rfl
      · exact .inl (.inr (.inl h))
      · by_cases hother : s.queues.home t = none ∧ t ∉ s.running
        · exact .inr ⟨rfl, hother⟩
        · left
          unfold Owned
          rw [hq, hr]
          tauto
    · exact .inl (.inr (.inr (hr ▸ h)))
  have hframe : ∀ f f' rest, s.stack = f :: rest → s'.stack = f' :: rest → f'.held = f.held →
      s'.running = s.running := fun f f' rest hstack hstack' hheld => by
    rw [running_cons hstack, running_cons hstack', hheld]
  have hreturn : ∀ f rest, s.stack = f :: rest → s'.stack = rest → f.held = none →
      s'.running = s.running := fun f rest hstack hstack' hheld => by
    rw [running_cons hstack, running, hstack', hheld]
    rfl
  cases (move_of_step h).2 with
  | stay hu heff => exact .inl (heff.owned ho)
  | jump hstack hj => exact .inl (hj.owned hstack ho)
  | crash heff hpanic => simp [panic] at hp
  | selectCrash => simp [panic] at hp
  | @repoll _ s₁ b pc rest hstack hpc heff =>
    have hstack₁ : s₁.stack = .blockOn b pc :: rest := heff.steady.stack.trans hstack
    refine .inl (owned_of_eq (s := s₁) rfl rfl ?_ (heff.owned ho))
    exact (running_cons (f := .blockOn b .polling) rfl).trans (running_cons hstack₁).symm
  | select hstack hf hfront hb =>
    exact .inl (ho.poll hstack hf rfl (handle_setTask (by rfl)) rfl)
  | pending hstack => exact hsame rfl (hframe _ _ _ hstack rfl rfl)
  | sleep hstack hq => exact .inl (ho.sleep hstack)
  | ready hstack => exact hsame rfl (hframe _ _ _ hstack rfl rfl)
  | complete hstack hfs => exact ho.complete hstack rfl (handle_setTask (by rfl)) rfl
  | replace hstack hfd => exact hsame rfl (hframe _ _ _ hstack rfl rfl)
  | @discard k x q u pc rest hstack hq hpc =>
    have hrun : ({ s with queues := s.queues.release u, log := .discarded u :: s.log }.setStack
        (.run pc :: rest)).running = s.running := hframe _ _ _ hstack rfl rfl
    rcases queues_of_teardown hstack h with ⟨v, hv, hqueues⟩ | hqueues
    · by_cases ht : t = v
      · subst ht
        by_cases hother : (s.tasks t).handle = false ∧ t ∉ s.running
        · exact .inr (by simp [GivesUp, hstack, hv, hother])
        · left
          rcases not_and_or.mp hother with hh | hr
          · exact .inr (.inl (Bool.of_not_eq_false hh))
          · exact .inr (.inr (hrun ▸ not_not.mp hr))
      · refine hsame ?_ hrun
        rw [hqueues, Family.home_release, if_neg ht]
    · exact hsame (by rw [hqueues]) hrun
  | close hstack => exact hsame rfl (hreturn _ _ hstack rfl rfl)
  | spawn hu =>
    left
    rw [Thread.spawn, enqueue_of_not_completed (by simp)]
    by_cases ht : t = s.nTasks
    · exact .inl (by simp [ht])
    · rcases ho with h | h | h
      · exact .inl (by simpa [Family.home_push, ht] using h)
      · exact .inr (.inl (by simpa [ht] using h))
      · exact .inr (.inr h)
  | @abort u hu hh =>
    left
    by_cases ht : t = u
    · exact .inr (.inl (ht ▸ hh))
    · rcases ho with h | h | h
      · exact .inl (by simpa [Thread.abort, Family.home_release, ht] using h)
      · exact .inr (.inl h)
      · exact .inr (.inr h)
  | handle hu hh he => exact hsame rfl rfl
  | shutdown hu => exact hsame rfl rfl
  | blockOn hu => exact hsame rfl rfl
  | @fdNew raw events fcntl ctl hu =>
    have hs := fdNew_steady s raw events fcntl ctl
    have hqueues := fdNew_queues s raw events fcntl ctl
    exact .inl (owned_of_eq hqueues hs.tasks (by rw [running, hs.stack]; rfl) ho)
  | fdDrop hu hlive => exact hsame rfl rfl
  | enterPollWith hu => exact hsame rfl rfl
  | closure hstack => exact hsame rfl (hreturn _ _ hstack rfl rfl)
  | foreignUpgrade halive => exact hsame rfl rfl
  | @foreignWrite u =>
    exact .inl (Effects.owned (s := { s with waking := s.waking.erase u }) (foreignWrite_effects s u) ho)
  | foreignBlockOn => exact .inl ((foreignBlockOn_effects s _).owned ho)

/-- What other threads do does not make the thread panic. -/
lemma panicked_of_isForeign {a : Action V} (h : s.step a = some s') (ha : a.isForeign = true) :
    s'.panicked = none := by
  obtain ⟨hp, hacts⟩ := acts_of_step h
  cases hacts with
  | foreignUpgrade u => exact hp
  | foreignWrite u => exact (foreignWrite_effects s u).steady.panicked.trans hp
  | foreignBlockOn b => exact (foreignBlockOn_effects s b).steady.panicked.trans hp
  | _ => simp [Action.isForeign] at ha

/-- Other threads give up no reference of this one. -/
lemma not_givesUp_of_isForeign {a : Action V} (ha : a.isForeign = true) : ¬ s.GivesUp a t := by
  cases a <;> simp_all [Action.isForeign, GivesUp]

/-- When the thread has dropped the handle of a task and holds no other reference, it has none. -/
lemma not_owned_of_dropHandle (h : s.step (.dropHandle t) = some s') (hq : s.queues.home t = none)
    (hr : t ∉ s.running) : ¬ s'.Owned t ∧ s'.waking = s.waking := by
  cases (acts_of_step h).2
  refine ⟨?_, rfl⟩
  rintro (h | h | h)
  · exact h hq
  · simp [setTask] at h
  · exact hr h

/-- When the thread has given up its last reference, it has none. -/
lemma not_owned_of_givesUp {a : Action V} (h : s.step a = some s') (hwf : s.Wf) (hg : s.GivesUp a t) :
    ¬ s'.Owned t ∧ s'.waking = s.waking := by
  cases a with
  | dropHandle u =>
    obtain ⟨rfl, hq, hr⟩ := hg
    exact not_owned_of_dropHandle h hq hr
  | go k =>
    have hgo := (go_of_step h).2
    simp only [GivesUp] at hg
    split at hg
    · rename_i u rest hstack
      obtain ⟨rfl, hq, hh⟩ := hg
      have hnot : u ∉ rest.filterMap Frame.held := by
        have hnodup := hwf.nodup
        rw [running_cons hstack] at hnodup
        exact (List.nodup_cons.mp hnodup).1
      have hnone : ∀ s₁ : Thread V, s₁.queues = s.queues → (s₁.tasks u).handle = (s.tasks u).handle →
          s₁.running = rest.filterMap Frame.held → ¬ s₁.Owned u := by
        rintro s₁ hqueues hhandle hrunning (ho | ho | ho)
        · exact ho (by rw [hqueues, hq])
        · simp [hhandle, hh] at ho
        · exact hnot (hrunning ▸ ho)
      simp only [go, hstack, goRunTask] at hgo
      split_ifs at hgo <;> obtain rfl := Option.some.inj hgo <;>
        exact ⟨hnone _ rfl (handle_setTask (by rfl)) rfl, rfl⟩
    · rename_i x rest hstack
      obtain ⟨hpop, hh, hr⟩ := hg
      have hnone : ∀ s₁ : Thread V, s₁.queues = s.queues.release t → s₁.tasks = s.tasks →
          s₁.running = s.running → ¬ s₁.Owned t := by
        rintro s₁ hqueues htasks hrunning (ho | ho | ho)
        · exact ho (by rw [hqueues, Family.home_release, if_pos rfl])
        · simp [htasks, hh] at ho
        · exact hr (hrunning ▸ ho)
      simp only [go, hstack, goRun] at hgo
      split at hgo
      · rename_i u s₁ hpop'
        obtain rfl : u = t := by simpa [hpop'] using hpop
        obtain ⟨-, rfl⟩ := popReplaced_eq_some hpop'
        obtain rfl := Option.some.inj hgo
        split_ifs
        · exact ⟨hnone _ rfl rfl rfl, rfl⟩
        · exact ⟨hnone _ rfl rfl (running_cons hstack).symm, rfl⟩
      · rename_i hnil
        simp [hnil] at hpop
    · exact absurd hg id
  | _ => exact absurd hg id

end Thread

namespace Exiting

variable {V : Type} {e e' : Exiting V} {t : TaskId}

/-- In every step that does not panic the exiting thread keeps a reference to every task, or gives up its
last one. -/
lemma owned_of_step {a : ExitAction V} (h : e.step a = some e') (hp : e'.thread.panicked = none)
    (ho : e.thread.Owned t) : e'.thread.Owned t ∨ e.GivesUp a t := by
  cases (move_of_step h).2.2 with
  | @pop k u q fs hstack hdone hpop hq hfs =>
    have hnil : e.thread.running = [] := by rw [Thread.running, hstack]; rfl
    by_cases ht : t = u
    · subst ht
      by_cases hh : (e.thread.tasks t).handle = false
      · exact .inr ⟨hpop, hh, by simp [hnil]⟩
      · exact .inl (.inr (.inl (Bool.of_not_eq_false hh)))
    · left
      rcases ho with ho | ho | ho
      · exact .inl (by simpa [within, Thread.setStack, Family.home_release, ht] using ho)
      · exact .inr (.inl ho)
      · simp [hnil] at ho
  | last hpop => exact .inl ho
  | @bare b s' hbare hs =>
    refine (Thread.owned_of_step hs hp ho).imp_right fun hg => ?_
    cases b with
    | dropHandle u => exact hg
    | go k => simp [Action.isBare] at hbare
    | _ => exact absurd hg id
  | quiet hgo hbare hq => exact .inl (Thread.owned_of_eq hq.queues hq.tasks hq.running ho)

/-- Only an upgrade lets another thread hold one more reference, and only to a task that is alive. -/
lemma waking_of_step {a : ExitAction V} (h : e.step a = some e') (ht : t ∈ e'.thread.waking) :
    t ∈ e.thread.waking ∨ LifeAction.isForeign (.drop a) = true ∧ e.thread.alive t = true := by
  cases (move_of_step h).2.2 with
  | pop => exact .inl ht
  | last => exact .inl ht
  | bare hbare hs => exact Thread.waking_of_step hs ht
  | quiet hgo hbare hq => exact .inl (hq.waking ▸ ht)

/-- What other threads do does not make the exiting thread panic. -/
lemma panicked_of_isForeign {a : ExitAction V} (h : e.step a = some e')
    (ha : LifeAction.isForeign (.drop a) = true) : e'.denied = false ∧ e'.thread.panicked = none := by
  obtain ⟨hd, hp, hm⟩ := move_of_step h
  cases hm with
  | pop => simp [LifeAction.isForeign, Action.isForeign] at ha
  | last => simp [LifeAction.isForeign, Action.isForeign] at ha
  | bare hbare hs => exact ⟨hd, Thread.panicked_of_isForeign hs ha⟩
  | quiet hgo hbare hq =>
    cases a with
    | wakeElsewhere alive => simp [LifeAction.isForeign] at ha
    | own b =>
      have hbare := hbare b rfl
      cases b <;> simp_all [LifeAction.isForeign, Action.isForeign, Action.isBare]

/-- When the exiting thread has given up its last reference, it has none. -/
lemma not_owned_of_givesUp {a : ExitAction V} (h : e.step a = some e') (hg : e.GivesUp a t) :
    ¬ e'.thread.Owned t ∧ e'.thread.waking = e.thread.waking := by
  cases (move_of_step h).2.2 with
  | @pop k u q fs hstack hdone hpop hq hfs =>
    obtain ⟨hpop', hh, hr⟩ := hg
    obtain rfl : u = t := Option.some.inj (hpop.symm.trans hpop')
    refine ⟨?_, rfl⟩
    rintro (ho | ho | ho)
    · exact ho (by simp [within, Thread.setStack])
    · simp [within, Thread.setStack, hh] at ho
    · rcases hfs with rfl | rfl <;> simp [within, Thread.setStack, Thread.running, Frame.held] at ho
  | last hpop => simp [GivesUp, hpop] at hg
  | @bare b s' hbare hs =>
    cases b with
    | dropHandle u =>
      obtain ⟨rfl, hq, hr⟩ := hg
      exact Thread.not_owned_of_dropHandle hs hq hr
    | go k => simp [Action.isBare] at hbare
    | _ => exact absurd hg id
  | quiet hgo hbare hq =>
    cases a with
    | wakeElsewhere alive => exact absurd hg id
    | own b =>
      cases b with
      | go k => exact absurd rfl (hgo k)
      | dropHandle u => simpa [Action.isBare] using hbare _ rfl
      | _ => exact absurd hg id

end Exiting

/-! ## The last reference -/

namespace Life

variable {V : Type} {p p' : Life V} {t : TaskId}

@[simp] lemma memory_withMemory (p : Life V) (s : Thread V) : (p.withMemory s).memory = s := by
  cases p <;> rfl

/-- Changing the memory, but not whether the thread has panicked. -/
lemma hasPanicked_withMemory {s : Thread V} (h : s.panicked = p.memory.panicked) :
    (p.withMemory s).hasPanicked = p.hasPanicked := by
  cases p with
  | running s₀ => simp [withMemory, hasPanicked, h, memory]
  | exiting e => simp [withMemory, hasPanicked, Exiting.within, h, memory]

/-- What a step in the life of a thread does. -/
inductive Move : Life V → LifeAction V → Life V → Prop
  | run {s s' : Thread V} {a : Action V} (hs : s.step a = some s') :
      Move (.running s) (.run a) (.running s')
  | exit {s : Thread V} (hstack : s.stack = [.user]) (hp : s.panicked = none) :
      Move (.running s) .exit (.exiting s.exit)
  | drop {e e' : Exiting V} {a : ExitAction V} (hs : e.step a = some e') :
      Move (.exiting e) (.drop a) (.exiting e')
  | cloned {p : Life V} {t : TaskId} (ht : t ∈ p.memory.waking) (hp : p.hasPanicked = false) :
      Move p (.cloned t) (p.withMemory { p.memory with waking := p.memory.waking.erase t })

/-- Every step is a move. -/
lemma move_of_step {a : LifeAction V} (h : step p a = some p') : Move p a p' := by
  unfold step at h
  split at h
  · obtain ⟨s', hs, rfl⟩ := Option.map_eq_some_iff.mp h
    exact .run hs
  · split_ifs at h with hexit
    exact Option.some.inj h ▸ .exit hexit.1 hexit.2
  · obtain ⟨e', hs, rfl⟩ := Option.map_eq_some_iff.mp h
    exact .drop hs
  · split_ifs at h with hcloned
    exact Option.some.inj h ▸ .cloned hcloned.1 hcloned.2
  · simp at h

/-- A thread that has not panicked holds a reference to every task to which another thread holds one. -/
def Covered (p : Life V) : Prop :=
  p.hasPanicked = false → ∀ t ∈ p.memory.waking, p.memory.Owned t

/-- In every step that does not panic the thread keeps a reference to every task, or gives up its last
one. -/
lemma owned_of_step {a : LifeAction V} (h : step p a = some p') (hp : p'.hasPanicked = false)
    (ho : p.memory.Owned t) : p'.memory.Owned t ∨ p.GivesUp a t := by
  cases move_of_step h with
  | @run s s' a hs =>
    have hn : s'.panicked = none := by simpa [hasPanicked] using hp
    exact Thread.owned_of_step hs hn ho
  | @exit s hstack hn =>
    exact .inl (Thread.owned_of_eq (s := s) rfl rfl (Thread.running_cons hstack).symm ho)
  | drop hs =>
    obtain ⟨-, hp⟩ := Bool.or_eq_false_iff.mp hp
    exact Exiting.owned_of_step hs (by simpa using hp) ho
  | cloned ht hn =>
    rw [memory_withMemory]
    exact .inl ho

/-- Only an upgrade lets another thread hold one more reference, and only to a task that is alive. -/
lemma waking_of_step {a : LifeAction V} (h : step p a = some p') (ht : t ∈ p'.memory.waking) :
    t ∈ p.memory.waking ∨ a.isForeign = true ∧ p.memory.alive t = true := by
  cases move_of_step h with
  | run hs => exact Thread.waking_of_step hs ht
  | exit hstack hn => exact .inl ht
  | drop hs => exact Exiting.waking_of_step hs ht
  | cloned hmem hn =>
    rw [memory_withMemory] at ht
    exact .inl (List.mem_of_mem_erase ht)

/-- No step leads out of a panic, and other threads do not lead into one. -/
lemma hasPanicked_of_step {a : LifeAction V} (h : step p a = some p') :
    p.hasPanicked = false ∧ (a.isForeign = true → p'.hasPanicked = false) := by
  cases move_of_step h with
  | run hs =>
    refine ⟨by simp [hasPanicked, (Thread.move_of_step hs).1], fun ha => ?_⟩
    simp [hasPanicked, Thread.panicked_of_isForeign hs ha]
  | exit hstack hn => exact ⟨by simp [hasPanicked, hn], by simp [LifeAction.isForeign]⟩
  | drop hs =>
    obtain ⟨hd, hn, -⟩ := Exiting.move_of_step hs
    refine ⟨by simp [hasPanicked, hd, hn], fun ha => ?_⟩
    simp [hasPanicked, Exiting.panicked_of_isForeign hs ha]
  | cloned hmem hn => exact ⟨hn, fun _ => (hasPanicked_withMemory (by rfl)).trans hn⟩

/-- Other threads give up no reference of this one. -/
lemma not_givesUp_of_isForeign {a : LifeAction V} (ha : a.isForeign = true) : ¬ p.GivesUp a t := by
  cases p with
  | running s =>
    cases a with
    | run a => exact Thread.not_givesUp_of_isForeign ha
    | _ => exact id
  | exiting e =>
    cases a with
    | drop a =>
      cases a with
      | own b => cases b <;> simp_all [LifeAction.isForeign, Action.isForeign, GivesUp, Exiting.GivesUp]
      | wakeElsewhere alive => exact id
    | _ => exact id

/-- A step in which the thread does not give up its last reference to a task that another thread holds
leaves every such task covered. -/
lemma covered_step {a : LifeAction V} (h : step p a = some p') (hC : Outlives p a) (hc : Covered p) :
    Covered p' := by
  intro hp' t ht
  have hp := (hasPanicked_of_step h).1
  rcases waking_of_step h ht with hmem | ⟨hforeign, halive⟩
  · exact (owned_of_step h hp' (hc hp t hmem)).resolve_right (hC t hmem)
  · have ho : p.memory.Owned t := by
      rcases Thread.alive_iff_owned.mp halive with ho | hmem
      · exact ho
      · exact hc hp t hmem
    exact (owned_of_step h hp' ho).resolve_right (not_givesUp_of_isForeign hforeign)

/-- A thread that runs is well-formed. -/
def Wf : Life V → Prop
  | .running s => s.Wf
  | .exiting _ => True

/-- What a running thread reaches is well-formed. -/
lemma wf_of_reachable (h : Reachable step IsStart p) : p.Wf := by
  refine h.invariant ?_ ?_
  · rintro p ⟨s, hs, rfl⟩
    exact Thread.IsStart.wf hs
  · intro p a p' _ hwf _ hs
    cases move_of_step hs with
    | run hrun => exact (Thread.move_of_step hrun).2.wf hwf
    | exit => trivial
    | drop => trivial
    | @cloned p t ht hp =>
      cases p with
      | running s => exact Thread.Wf.erase_waking hwf t
      | exiting e => trivial

/-- When the thread has given up its last reference, it has none. -/
lemma not_owned_of_givesUp {a : LifeAction V} (h : step p a = some p') (hwf : p.Wf)
    (hg : p.GivesUp a t) : ¬ p'.memory.Owned t ∧ p'.memory.waking = p.memory.waking := by
  cases move_of_step h with
  | run hs => exact Thread.not_owned_of_givesUp hs hwf hg
  | drop hs => exact Exiting.not_owned_of_givesUp hs hg
  | exit => exact absurd hg id
  | @cloned p t ht hp => cases p <;> exact absurd hg id

/-- Without a reference of the thread itself, the other threads release the last one. -/
lemma released_elsewhere {q : Life V} (hp : q.hasPanicked = false) (ho : ¬ q.memory.Owned t)
    (ht : t ∈ q.memory.waking) : ∃ q₁ q₂,
      Relation.ReflTransGen (fun q q' => step q (.cloned t) = some q') q q₁ ∧
        step q₁ (.cloned t) = some q₂ ∧ q₁.memory.alive t = true ∧ q₂.memory.alive t = false := by
  induction hn : q.memory.waking.count t generalizing q with
  | zero => exact absurd ht (List.count_eq_zero.mp hn)
  | succ n ih =>
    let q' := q.withMemory { q.memory with waking := q.memory.waking.erase t }
    have hs : step q (.cloned t) = some q' := by
      unfold step
      simp [ht, hp, q']
    have hmemory : q'.memory = { q.memory with waking := q.memory.waking.erase t } :=
      memory_withMemory _ _
    have ho' : ¬ q'.memory.Owned t := by
      rw [hmemory]
      exact ho
    by_cases hlast : t ∈ q'.memory.waking
    · have hp' : q'.hasPanicked = false := (hasPanicked_withMemory (by rfl)).trans hp
      have hcount : q'.memory.waking.count t = n := by
        rw [hmemory, List.count_erase_self, hn, Nat.add_sub_cancel]
      obtain ⟨q₁, q₂, hrun, hdies⟩ := ih hp' ho' hlast hcount
      exact ⟨q₁, q₂, .head hs hrun, hdies⟩
    · refine ⟨q, q', .refl, hs, Thread.alive_iff_owned.mpr (.inr ht), ?_⟩
      exact Bool.eq_false_iff.mpr fun h => (Thread.alive_iff_owned.mp h).elim ho' hlast

/-- In every run in which a thread never gives up its own last reference to a task while another thread
that is waking it or cloning a waker of it holds one: no step of another thread releases the last
reference to a task.  If the thread does give up its last reference in such a moment, the other threads
release the last one when they go on. -/
theorem last_released_at_home (h : ReachableUnder step IsStart Outlives p) :
    (∀ a p' t, step p a = some p' → p.memory.alive t = true → p'.memory.alive t = false →
      a.isForeign = false) ∧
    ∀ a p' t, step p a = some p' → p'.hasPanicked = false → t ∈ p.memory.waking → p.GivesUp a t →
      ∃ q₁ q₂, Relation.ReflTransGen (fun q q' => step q (.cloned t) = some q') p' q₁ ∧
        step q₁ (.cloned t) = some q₂ ∧ q₁.memory.alive t = true ∧ q₂.memory.alive t = false := by
  have hc : Covered p := by
    refine h.invariant ?_ ?_
    · rintro p ⟨s, ⟨pipeWr, pipeCapacity, -, rfl⟩, rfl⟩ - t ht
      simp [memory, Thread.start] at ht
    · intro p a p' _ hc hC hs
      exact covered_step hs hC hc
  refine ⟨fun a p' t hs halive hdead => ?_, fun a p' t hs hp' ht hg => ?_⟩
  · by_contra hforeign
    have hforeign := Bool.of_not_eq_false hforeign
    obtain ⟨hp, hp'⟩ := hasPanicked_of_step hs
    have ho : p.memory.Owned t := (Thread.alive_iff_owned.mp halive).elim id (hc hp t)
    have ho' : p'.memory.Owned t :=
      (owned_of_step hs (hp' hforeign) ho).resolve_right (not_givesUp_of_isForeign hforeign)
    simp [Thread.alive_iff_owned.mpr (.inl ho')] at hdead
  · obtain ⟨ho, hwaking⟩ := not_owned_of_givesUp hs (wf_of_reachable h.reachable) hg
    exact released_elsewhere hp' ho (hwaking ▸ ht)

/-- A life of a thread with a property that is reached by executing a sequence of actions. -/
lemma exists_life (C : Life V → LifeAction V → Prop) [∀ p a, Decidable (C p a)]
    (actions : List (LifeAction V)) (P : Life V → Bool)
    (hP : (Epox.exec step (fun p a => decide (C p a)) (.running (Thread.start V 3 16)) actions).any P =
      true) : ∃ p : Life V, ReachableUnder step IsStart C p ∧ P p = true :=
  ReachableUnder.exists_run _ _ ⟨_, ⟨3, 16, by decide, rfl⟩, rfl⟩
    actions hP

/-- A task completes while another thread is waking it, and its handle still exists. -/
theorem last_released_at_home_of_handle : ∃ p : Life Unit, ReachableUnder step IsStart Outlives p ∧
    p.memory.waking = [0] ∧ (p.memory.tasks 0).hasCompleted = true ∧
      ∀ a p', a.isForeign = true → step p a = some p' → p'.memory.alive 0 = true := by
  obtain ⟨p, hp, h⟩ := exists_life (V := Unit) Outlives
    [.run (.spawn .normal), .run .run, .run (.go (.ok [])), .run (.foreignUpgrade 0), .run (.ready ()),
      .run (.go (.ok [])), .run (.go (.ok []))]
    (fun p => decide (p.memory.waking = [0] ∧ (p.memory.tasks 0).hasCompleted = true ∧
      p.memory.alive 0 = true)) (by decide)
  obtain ⟨hwaking, hcompleted, halive⟩ := of_decide_eq_true h
  obtain ⟨hhome, -⟩ := last_released_at_home hp
  refine ⟨p, hp, hwaking, hcompleted, fun a p' hforeign hs => ?_⟩
  by_contra hdead
  simp [hhome a p' 0 hs halive (by simpa using hdead)] at hforeign

/-- Another thread that is waking a task releases the last reference to it: meanwhile the task has
completed, and its handle is gone. -/
theorem last_released_elsewhere : ∃ p p' : Life Unit, Reachable step IsStart p ∧
    step p (.run (.foreignWrite 0)) = some p' ∧ (p.memory.tasks 0).hasCompleted = true ∧
      p.memory.alive 0 = true ∧ p'.memory.alive 0 = false := by
  obtain ⟨p, hp, h⟩ := exists_life (V := Unit) (fun _ _ => True)
    [.run (.spawn .normal), .run (.dropHandle 0), .run .run, .run (.go (.ok [])),
      .run (.foreignUpgrade 0), .run (.ready ()), .run (.go (.ok [])), .run (.go (.ok []))]
    (fun p => (step p (.run (.foreignWrite 0))).any fun p' : Life Unit => decide (
      (p.memory.tasks 0).hasCompleted = true ∧ p.memory.alive 0 = true ∧ p'.memory.alive 0 = false))
    (by decide)
  obtain ⟨p', hs, h⟩ := (Option.any_eq_true _ _).mp h
  exact ⟨p, p', hp, hs, of_decide_eq_true h⟩

end Life

end Epox

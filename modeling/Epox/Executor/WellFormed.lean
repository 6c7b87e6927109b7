import Epox.Executor.Moves

/-!
# Well-formed threads

`Thread.Wf` collects what holds of the memory of a thread in every reachable state and what all later
results rest on: which tasks exist, which pipe belongs to which executor, what the call stack looks like,
and that a future is borrowed exactly while it is on the stack.
-/

namespace Epox

/-! ## Frames -/

/-- The poll of a task that a frame is the activation of, and whether the future has returned
`Poll::Ready`. -/
def Frame.poll : Frame → Option (TaskId × Bool)
  | .runTask t .polling | .runTask t .settle => some (t, false)
  | .runTask t (.wakeHandle _) | .runTask t .inHandleWake | .runTask t .complete => some (t, true)
  | _ => none

/-- The task whose future a frame has borrowed. -/
def Frame.borrows : Frame → Option TaskId
  | .runTask t .polling | .runTask t (.wakeHandle _) | .runTask t .inHandleWake
  | .runTask t .complete => some t
  | _ => none

/-- A frame that can have other frames above it. -/
def Frame.calling : Frame → Bool
  | .user | .run .afterTask | .run (.dropping _) | .runTask _ .polling | .runTask _ .inHandleWake
  | .runTask _ .drop | .blockOn _ .polling | .blockOn _ .waitZero | .pollWith _ _ => true
  | _ => false

/-- The executor whose queues a frame is dropping. -/
def Frame.replaced : Frame → Option ExecId
  | .run (.teardown x) | .run (.dropping x) => some x
  | _ => none

/-- A frame of library code that has left its loop, or never had one. -/
def Frame.passing : Frame → Bool
  | .runTask _ .settle | .runTask _ (.wakeHandle _) | .run (.teardown _) => true
  | _ => false

/-- A frame holds the task it polls. -/
lemma Frame.held_eq (f : Frame) : f.held = f.poll.map Prod.fst := by
  rcases f with _ | pc | ⟨t, pc⟩ | ⟨b, pc⟩ | ⟨f, cx⟩ <;> try rfl
  cases pc <;> rfl

/-- A frame holds the task it has borrowed. -/
lemma Frame.held_of_borrows {f : Frame} {t : TaskId} (h : f.borrows = some t) : f.held = some t := by
  rcases f with _ | pc | ⟨u, pc⟩ | ⟨b, pc⟩ | ⟨f, cx⟩ <;> try simp [Frame.borrows] at h
  cases pc <;> simp_all [Frame.held]

/-- Below the top of the stack, a frame has borrowed the task it holds. -/
lemma Frame.borrows_of_held {f : Frame} {t : TaskId} (h : f.held = some t) (hc : f.calling = true) :
    f.borrows = some t := by
  rcases f with _ | pc | ⟨u, pc⟩ | ⟨b, pc⟩ | ⟨f, cx⟩ <;> try simp [Frame.held] at h
  cases pc <;> simp_all [Frame.borrows, Frame.calling]

/-- The loops that poll the next runnable task. -/
lemma Frame.of_loop {f f' : Frame} (h : f.loop = some f') :
    (f = .run .select ∧ f' = .run .afterTask) ∨
      ∃ b, f = .blockOn b .select ∧ f' = .blockOn b .waitZero := by
  unfold Frame.loop at h
  split at h <;> simp_all

namespace Thread

variable {V : Type} {s s' : Thread V}

/-! ## What most steps leave alone -/

/-- The tasks, the stack and the references are as before, and so is the owner of every pipe. -/
structure Steady (s s' : Thread V) : Prop where
  cur : s'.cur = s.cur
  tasks : s'.tasks = s.tasks
  nTasks : s'.nTasks = s.nTasks
  stack : s'.stack = s.stack
  waking : s'.waking = s.waking
  panicked : s'.panicked = s.panicked
  pipeCapacity : s'.pipeCapacity = s.pipeCapacity
  pipeWr : ∀ x, (s'.execs x).pipeWr = (s.execs x).pipeWr
  alive : ∀ t, s'.alive t = s.alive t

/-- Nothing changes when nothing is done. -/
lemma Steady.refl (s : Thread V) : Steady s s := by
  constructor <;> simp

/-- Two changes in a row. -/
lemma Steady.trans {s₁ : Thread V} (h : Steady s s₁) (h' : Steady s₁ s') : Steady s s' where
  cur := h'.cur.trans h.cur
  tasks := h'.tasks.trans h.tasks
  nTasks := h'.nTasks.trans h.nTasks
  stack := h'.stack.trans h.stack
  waking := h'.waking.trans h.waking
  panicked := h'.panicked.trans h.panicked
  pipeCapacity := h'.pipeCapacity.trans h.pipeCapacity
  pipeWr x := (h'.pipeWr x).trans (h.pipeWr x)
  alive t := (h'.alive t).trans (h.alive t)

/-- Changing an executor but not its pipe. -/
lemma steady_setExec (s : Thread V) {x : ExecId} {e : Executor}
    (he : e.pipeWr = (s.execs x).pipeWr) : Steady s (s.setExec x e) where
  cur := rfl
  tasks := rfl
  nTasks := rfl
  stack := rfl
  waking := rfl
  panicked := rfl
  pipeCapacity := rfl
  pipeWr y := by
    simp only [setExec, Function.update_apply]
    split_ifs with hy
    · rw [he, hy]
    · rfl
  alive _ := rfl

/-- The effects of wakes leave the tasks alone. -/
lemma Effect.steady (h : Effect s s') : Steady s s' := by
  have halive := fun t => h.alive_congr (t := t)
  cases h with
  | read hpipe hp => exact steady_setExec s rfl
  | receive hpipe hal hc =>
    rename_i t rest
    have hset := steady_setExec s (x := s.cur) (e := { s.executor with pipe := rest }) rfl
    rw [enqueue_of_not_completed (by exact hc)] at halive ⊢
    exact ⟨rfl, rfl, rfl, rfl, rfl, rfl, rfl, hset.pipeWr, halive⟩
  | enqueue hal hc =>
    rw [enqueue_of_not_completed hc] at halive ⊢
    exact ⟨rfl, rfl, rfl, rfl, rfl, rfl, rfl, fun _ => rfl, halive⟩
  | write => exact steady_setExec s rfl
  | setWaker | woken | blockOnWoken | otherWoken =>
    exact ⟨rfl, rfl, rfl, rfl, rfl, rfl, rfl, fun _ => rfl, halive⟩

/-- The effects of wakes leave the tasks alone. -/
lemma Effects.steady (h : Effects s s') : Steady s s' := by
  induction h with
  | refl => exact .refl s
  | tail _ h ih => exact ih.trans h.steady

/-- What the effects of wakes leave alone: besides the tasks, everything but queues, pipes, wakers of
`Fd`s and history, to which they only add wakes. -/
structure Untouched (s s' : Thread V) : Prop extends Steady s s' where
  execs : ∀ x, { s'.execs x with pipe := [] } = { s.execs x with pipe := [] }
  fds : ∀ f, { s'.fds f with ew := default } = { s.fds f with ew := default }
  nFds : s'.nFds = s.nFds
  nBlockOns : s'.nBlockOns = s.nBlockOns
  blockOnPipe : s'.blockOnPipe = s.blockOnPipe
  log : ∃ l, s'.log = l ++ s.log ∧ ∀ e ∈ l, e.isWake = true

/-- Two changes in a row. -/
lemma Untouched.trans {s₁ : Thread V} (h : Untouched s s₁) (h' : Untouched s₁ s') :
    Untouched s s' where
  toSteady := h.toSteady.trans h'.toSteady
  execs x := (h'.execs x).trans (h.execs x)
  fds f := (h'.fds f).trans (h.fds f)
  nFds := h'.nFds.trans h.nFds
  nBlockOns := h'.nBlockOns.trans h.nBlockOns
  blockOnPipe := h'.blockOnPipe.trans h.blockOnPipe
  log := by
    obtain ⟨l, hl, hwake⟩ := h.log
    obtain ⟨l', hl', hwake'⟩ := h'.log
    refine ⟨l' ++ l, by rw [hl', hl, List.append_assoc], fun e he => ?_⟩
    exact (List.mem_append.mp he).elim (hwake' e) (hwake e)

/-- No buffer for events changes its length. -/
lemma Untouched.events (h : Untouched s s') (x : ExecId) :
    (s'.execs x).events = (s.execs x).events := by
  simpa using congrArg Executor.events (h.execs x)

/-- No executor is shut down. -/
lemma Untouched.shutdown (h : Untouched s s') (x : ExecId) :
    (s'.execs x).shutdown = (s.execs x).shutdown := by
  simpa using congrArg Executor.shutdown (h.execs x)

/-- No pipe is opened or closed. -/
lemma Untouched.isOpen (h : Untouched s s') (x : ExecId) :
    (s'.execs x).isOpen = (s.execs x).isOpen := by
  simpa using congrArg Executor.isOpen (h.execs x)

/-- No `Fd` is dropped. -/
lemma Untouched.live (h : Untouched s s') (f : FdId) : (s'.fds f).live = (s.fds f).live := by
  simpa using congrArg Fd.live (h.fds f)

/-- Every `Fd` stays with its executor. -/
lemma Untouched.fdExec (h : Untouched s s') (f : FdId) : (s'.fds f).exec = (s.fds f).exec := by
  simpa using congrArg Fd.exec (h.fds f)

/-- An elementary change leaves alone what the effects of wakes do. -/
lemma Effect.untouched (h : Effect s s') : Untouched s s' := by
  have hsteady := h.steady
  have hpipe : ∀ x pipe y, { (s.setExec x { s.execs x with pipe := pipe }).execs y with pipe := [] } =
      { s.execs y with pipe := [] } := by
    intro x pipe y
    by_cases hy : y = x
    · subst hy
      simp [setExec]
    · simp [setExec, hy]
  cases h with
  | read => exact ⟨hsteady, hpipe _ _, fun _ => rfl, rfl, rfl, rfl, [], rfl, by simp⟩
  | receive hpipe' halive hc =>
    rw [enqueue_of_not_completed (by exact hc)] at hsteady ⊢
    exact ⟨hsteady, hpipe _ _, fun _ => rfl, rfl, rfl, rfl, [.enqueued _], rfl,
      by simp [Event.isWake]⟩
  | enqueue halive hc =>
    rw [enqueue_of_not_completed hc] at hsteady ⊢
    exact ⟨hsteady, fun _ => rfl, fun _ => rfl, rfl, rfl, rfl, [.enqueued _], rfl,
      by simp [Event.isWake]⟩
  | @setWaker f ew =>
    refine ⟨hsteady, fun _ => rfl, fun g => ?_, rfl, rfl, rfl, [], rfl, by simp⟩
    by_cases hg : g = f
    · subst hg
      simp [setFd]
    · simp [setFd, hg]
  | write => exact ⟨hsteady, hpipe _ _, fun _ => rfl, rfl, rfl, rfl, [], rfl, by simp⟩
  | woken | blockOnWoken | otherWoken =>
    exact ⟨hsteady, fun _ => rfl, fun _ => rfl, rfl, rfl, rfl, [_], rfl, by simp [Event.isWake]⟩

/-- What the effects of wakes leave alone. -/
lemma Effects.untouched (h : Effects s s') : Untouched s s' := by
  induction h with
  | refl => exact ⟨.refl s, fun _ => rfl, fun _ => rfl, rfl, rfl, rfl, [], rfl, by simp⟩
  | tail _ h ih => exact ih.trans h.untouched

/-- A jump leaves the tasks alone. -/
lemma Jump.effects {a : Action V} {f : Frame} {fs : List Frame} (h : Jump s a s' f fs) :
    Effects s s' := by
  cases h with
  | runWaited hpc heff | runFailed hpc heff | handleWake hpc heff => exact heff
  | _ => exact .refl

/-- Dropping an `Fd` leaves the tasks alone. -/
lemma fdDrop_steady (s : Thread V) (f : FdId) : Steady s (s.fdDrop f) := by
  have h : Steady s (s.epollDel (s.fds f).raw) := steady_setExec s rfl
  exact ⟨h.cur, h.tasks, h.nTasks, h.stack, h.waking, h.panicked, h.pipeCapacity, h.pipeWr,
    h.alive⟩

/-- An `Fd` has been created and the buffer for events made longer. -/
def addFd (s : Thread V) (fd : Fd) (interest : List (RawFd × FdId)) : Thread V :=
  { s with fds := Function.update s.fds s.nFds fd, nFds := s.nFds + 1 }.setExec s.cur
    { s.executor with events := s.executor.events + 1, interest := interest }

/-- `epoll_add` makes the buffer for events longer, whether it succeeds or not. -/
lemma epollAdd_cases (s : Thread V) (raw : RawFd) (f : FdId) (ctl : Bool) :
    ∃ interest ok, s.epollAdd raw f ctl = (s.setExec s.cur
      { s.executor with events := s.executor.events + 1, interest := interest }, ok) := by
  unfold epollAdd
  dsimp only
  split_ifs
  · exact ⟨_, true, rfl⟩
  · exact ⟨s.executor.interest, false, rfl⟩

/-- `Fd::new` fails at once, or creates an `Fd` of the current executor, which it drops if `epoll_ctl`
fails. -/
lemma fdNew_cases (s : Thread V) (raw : RawFd) (events : EpollFlags) (fcntl ctl : Bool) :
    s.fdNew raw events fcntl ctl = s ∨ ∃ fd interest, fd.live = true ∧ fd.exec = s.cur ∧
      (s.fdNew raw events fcntl ctl = s.addFd fd interest ∨
        s.fdNew raw events fcntl ctl = (s.addFd fd interest).fdDrop s.nFds) := by
  cases fcntl with
  | false => exact .inl rfl
  | true =>
    right
    let fd : Fd :=
      { raw := raw
        ew := EpollWaker.new (events &&& (EpollFlags.epollIn ||| EpollFlags.epollOut))
        borrowed := false
        exec := s.cur
        live := true }
    obtain ⟨interest, ok, hadd⟩ := epollAdd_cases { s with
      fds := Function.update s.fds s.nFds fd, nFds := s.nFds + 1 } raw s.nFds ctl
    refine ⟨fd, interest, rfl, rfl, ?_⟩
    simp only [fdNew, if_true]
    rw [hadd]
    cases ok
    · exact .inr rfl
    · exact .inl rfl

/-- Creating an `Fd` leaves the tasks alone. -/
lemma addFd_steady (s : Thread V) (fd : Fd) (interest : List (RawFd × FdId)) :
    Steady s (s.addFd fd interest) := by
  have h : Steady s (s.setExec s.cur
    { s.executor with events := s.executor.events + 1, interest := interest }) :=
      steady_setExec s rfl
  exact ⟨h.cur, h.tasks, h.nTasks, h.stack, h.waking, h.panicked, h.pipeCapacity, h.pipeWr, h.alive⟩

/-- `Fd::new` leaves the tasks alone. -/
lemma fdNew_steady (s : Thread V) (raw : RawFd) (events : EpollFlags) (fcntl ctl : Bool) :
    Steady s (s.fdNew raw events fcntl ctl) := by
  rcases fdNew_cases s raw events fcntl ctl with h | ⟨fd, interest, -, -, h | h⟩ <;> rw [h]
  · exact .refl s
  · exact addFd_steady s fd interest
  · exact (addFd_steady s fd interest).trans (fdDrop_steady _ _)

/-- Creating an `Fd` leaves the queues alone. -/
lemma fdNew_queues (s : Thread V) (raw : RawFd) (events : EpollFlags) (fcntl ctl : Bool) :
    (s.fdNew raw events fcntl ctl).queues = s.queues := by
  rcases fdNew_cases s raw events fcntl ctl with h | ⟨fd, interest, -, -, h | h⟩ <;> rw [h] <;> rfl

/-! ## The stack -/

/-- The tasks whose futures are borrowed by activations on the stack. -/
def borrowing (s : Thread V) : List TaskId := s.stack.filterMap Frame.borrows

/-- The running tasks of a stack with a known top. -/
lemma running_cons {f : Frame} {rest : List Frame} (h : s.stack = f :: rest) :
    s.running = f.held.toList ++ rest.filterMap Frame.held := by
  cases hf : f.held <;> simp [running, h, hf]

/-- The borrowed tasks of a stack with a known top. -/
lemma borrowing_cons {f : Frame} {rest : List Frame} (h : s.stack = f :: rest) :
    s.borrowing = f.borrows.toList ++ rest.filterMap Frame.borrows := by
  cases hf : f.borrows <;> simp [borrowing, h, hf]

/-- Code of the caller can have other frames above it. -/
lemma calling_of_inUserCode {f : Frame} {rest : List Frame} (h : s.stack = f :: rest)
    (hu : s.inUserCode = true) : f.calling = true := by
  rw [inUserCode, h] at hu
  split at hu <;> simp_all [Frame.calling]

/-- Code of the caller is running on some frame. -/
lemma exists_of_inUserCode (hu : s.inUserCode = true) :
    ∃ f rest, s.stack = f :: rest ∧ f.calling = true := by
  cases h : s.stack with
  | nil => simp [inUserCode, h] at hu
  | cons f rest => exact ⟨f, rest, rfl, calling_of_inUserCode h hu⟩

/-! ## Well-formed threads -/

/-- What holds of the memory of a thread in every reachable state. -/
structure Wf (s : Thread V) : Prop where
  /-- Tasks to which references exist have been spawned. -/
  ids : ∀ t, s.alive t = true → t < s.nTasks
  /-- No task is from a later executor than the current one. -/
  exec : ∀ t, (s.tasks t).exec ≤ s.cur
  /-- A task has the descriptor of the pipe of its executor. -/
  pipeWr : ∀ t < s.nTasks, (s.tasks t).pipeWr = (s.execs (s.tasks t).exec).pipeWr
  calling : ∀ f ∈ s.stack.tail, f.calling = true
  /-- Only executors that have been replaced are dropped. -/
  replaced : ∀ f ∈ s.stack, ∀ x, f.replaced = some x → x < s.cur
  nodup : s.running.Nodup
  /-- A future is borrowed exactly while an activation on the stack polls it. -/
  borrowed : ∀ t, (s.tasks t).borrowed = true ↔ t ∈ s.borrowing

/-- The references to a task. -/
lemma alive_iff {t : TaskId} : s.alive t = true ↔ s.queues.home t ≠ none ∨
    (s.tasks t).handle = true ∨ t ∈ s.running ∨ t ∈ s.waking := by
  simp [alive, isQueued, Option.isSome_iff_ne_none, or_assoc]

/-- Holding a task is a reference to it. -/
lemma alive_of_running {t : TaskId} (h : t ∈ s.running) : s.alive t = true := by
  simp [alive, h]

/-- Being in a queue is a reference. -/
lemma alive_of_home {t : TaskId} {q : QueueId} (h : s.queues.home t = some q) :
    s.alive t = true := by
  simp [alive, isQueued, h]

/-- Having a handle is a reference. -/
lemma alive_of_handle {t : TaskId} (h : (s.tasks t).handle = true) : s.alive t = true := by
  simp [alive, h]

/-- What is well-formed stays so when the tasks are left alone. -/
lemma Wf.steady (h : s.Wf) (hs : Steady s s') : s'.Wf where
  ids t ht := by
    rw [hs.nTasks]
    exact h.ids t (hs.alive t ▸ ht)
  exec t := by
    rw [hs.tasks, hs.cur]
    exact h.exec t
  pipeWr t ht := by
    rw [hs.tasks, hs.pipeWr]
    exact h.pipeWr t (hs.nTasks ▸ ht)
  calling := hs.stack ▸ h.calling
  replaced := by
    rw [hs.stack, hs.cur]
    exact h.replaced
  nodup := by
    rw [running, hs.stack]
    exact h.nodup
  borrowed := by
    rw [borrowing, hs.stack, hs.tasks]
    exact h.borrowed

/-- Frames by which the top of a stack can be replaced without touching the tasks. -/
structure Frame.Replaces (f : Frame) (fs : List Frame) : Prop where
  calling : ∀ g ∈ fs.tail, g.calling = true
  replaced : ∀ g ∈ fs, ∀ x, g.replaced = some x → f.replaced = some x
  held : (fs.filterMap Frame.held).Sublist f.held.toList
  borrows : fs.filterMap Frame.borrows = f.borrows.toList

/-- Replacing the top of the stack. -/
lemma Wf.setStack (h : s.Wf) (fs : List Frame) {f : Frame} {rest : List Frame}
    (hstack : s.stack = f :: rest) (hfs : Frame.Replaces f fs) : (s.setStack (fs ++ rest)).Wf := by
  have hsub : (s.setStack (fs ++ rest)).running.Sublist s.running := by
    rw [running_cons hstack, running, Thread.setStack, List.filterMap_append]
    exact hfs.held.append_right _
  refine ⟨fun t ht => h.ids t ?_, h.exec, h.pipeWr, fun g hg => ?_, fun g hg x hx => ?_,
    h.nodup.sublist hsub, fun t => ?_⟩
  · rw [alive_iff] at ht ⊢
    exact ht.imp_right (Or.imp_right (Or.imp_left fun hm => hsub.subset hm))
  · have hg' : g ∈ fs.tail ∨ g ∈ rest := by
      cases fs with
      | nil => exact .inr (List.mem_of_mem_tail hg)
      | cons f' fs => simpa [Thread.setStack] using hg
    rcases hg' with hg | hg
    · exact hfs.calling g hg
    · exact h.calling g (by simpa [hstack] using hg)
  · rcases List.mem_append.mp hg with hg | hg
    · exact h.replaced f (by simp [hstack]) x (hfs.replaced g hg x hx)
    · exact h.replaced g (by simp [hstack, hg]) x hx
  · have hb : (s.setStack (fs ++ rest)).borrowing = s.borrowing := by
      rw [borrowing_cons hstack, borrowing, Thread.setStack, List.filterMap_append, hfs.borrows]
    rw [hb]
    exact h.borrowed t

/-- A call from code of the caller. -/
lemma Frame.Replaces.push {f g : Frame} (hf : f.calling = true) (hheld : g.held = none)
    (hborrows : g.borrows = none) (hreplaced : g.replaced = none) : Frame.Replaces f [g, f] where
  calling := by simpa using hf
  replaced := by simp [hreplaced]
  held := by cases h : f.held <;> simp [hheld, h]
  borrows := by cases h : f.borrows <;> simp [hborrows, h]

/-- Jumps replace the top of the stack. -/
lemma Jump.replaces {a : Action V} {f : Frame} {fs : List Frame} (h : Jump s a s' f fs)
    {rest : List Frame} (hstack : s.stack = f :: rest) : Frame.Replaces f fs := by
  cases h with
  | enterRun hu => exact .push (calling_of_inUserCode hstack hu) rfl rfl rfl
  | handleWake hpc heff =>
    rcases hpc with rfl | rfl <;> constructor <;> simp [Frame.held, Frame.borrows, Frame.replaced]
  | runWaited hpc heff | runFailed hpc heff =>
    rcases hpc with rfl | rfl <;> constructor <;> simp [Frame.held, Frame.borrows, Frame.replaced]
  | _ => constructor <;> simp [Frame.held, Frame.borrows, Frame.replaced]

/-! ## Every move keeps a thread well-formed -/

/-- The front of the run queues is in one of them. -/
lemma home_of_front {t : TaskId} (h : s.front = some t) :
    ∃ p, s.queues.home t = some (s.cur, runq p) := by
  simp only [front, Option.or_eq_some_iff] at h
  rcases h with h | ⟨-, h | ⟨-, h⟩⟩
  · exact ⟨.high, Family.home_of_head? h⟩
  · exact ⟨.normal, Family.home_of_head? h⟩
  · exact ⟨.low, Family.home_of_head? h⟩

/-- The run queues have a front if a task is runnable. -/
lemma exists_front {t : TaskId} (h : s.runnable t) : ∃ u, s.front = some u := by
  refine Option.ne_none_iff_exists'.mp fun hnone => ?_
  have hmem : t ∈ s.queues.list (s.cur, runq (s.tasks t).priority) := (s.queues.mem_list _ t).mpr h
  simp only [front, Option.or_eq_none_iff, List.head?_eq_none_iff] at hnone
  cases hp : (s.tasks t).priority <;> simp [hp, runq, hnone] at hmem

/-- Taking a task out of its queue. -/
lemma Wf.release (h : s.Wf) (t : TaskId) (log : List Event) :
    ({ s with queues := s.queues.release t, log := log } : Thread V).Wf := by
  refine ⟨fun u hu => h.ids u ?_, h.exec, h.pipeWr, h.calling, h.replaced, h.nodup, h.borrowed⟩
  rw [alive_iff] at hu ⊢
  refine hu.imp_left fun hq => ?_
  simp only [Family.home_release] at hq
  split_ifs at hq
  · exact absurd rfl hq
  · exact hq

/-- Recording an event. -/
lemma Wf.emit (h : s.Wf) (e : Event) : (s.emit e).Wf :=
  ⟨h.ids, h.exec, h.pipeWr, h.calling, h.replaced, h.nodup, h.borrowed⟩

/-- Panicking. -/
lemma Wf.panic (h : s.Wf) (p : Panic) : (s.panic p).Wf :=
  ⟨h.ids, h.exec, h.pipeWr, h.calling, h.replaced, h.nodup, h.borrowed⟩

/-- Changing what a task stores, but neither its executor nor whether it is borrowed. -/
lemma Wf.setTask (h : s.Wf) {t : TaskId} {e : ExecutorTask V} (hexec : e.exec = (s.tasks t).exec)
    (hpipe : e.pipeWr = (s.tasks t).pipeWr) (hb : e.borrowed = (s.tasks t).borrowed)
    (hh : e.handle = true → (s.tasks t).handle = true) : (s.setTask t e).Wf := by
  refine ⟨fun u hu => h.ids u ?_, fun u => ?_, fun u hu => ?_, h.calling, h.replaced, h.nodup,
    fun u => ?_⟩
  · rw [alive_iff] at hu ⊢
    refine hu.imp_right (Or.imp_left fun hu => ?_)
    by_cases hut : u = t
    · subst hut
      exact hh (by simpa [Thread.setTask] using hu)
    · simpa [Thread.setTask, hut] using hu
  · by_cases hut : u = t
    · subst hut
      simpa [Thread.setTask, hexec] using h.exec u
    · simpa [Thread.setTask, hut] using h.exec u
  · by_cases hut : u = t
    · subst hut
      simpa [Thread.setTask, hexec, hpipe] using h.pipeWr u hu
    · simpa [Thread.setTask, hut] using h.pipeWr u hu
  · have hbu := h.borrowed u
    by_cases hut : u = t
    · subst hut
      simpa [Thread.setTask, borrowing, hb] using hbu
    · simpa [Thread.setTask, borrowing, hut] using hbu

/-- A task that is held on the stack below the top is borrowed. -/
lemma Wf.borrowed_of_running (h : s.Wf) {f : Frame} {rest : List Frame} (hstack : s.stack = f :: rest)
    {t : TaskId} (ht : t ∈ rest.filterMap Frame.held) : (s.tasks t).borrowed = true := by
  obtain ⟨g, hg, hgt⟩ := List.mem_filterMap.mp ht
  have hc : g.calling = true := h.calling g (by simpa [hstack] using hg)
  rw [h.borrowed, borrowing_cons hstack]
  exact List.mem_append_right _ (List.mem_filterMap.mpr ⟨g, hg, Frame.borrows_of_held hgt hc⟩)

/-- When a loop takes the next runnable task, the tasks on the stack are those that are borrowed. -/
lemma Wf.running_iff_borrowed (h : s.Wf) {f f' : Frame} {rest : List Frame}
    (hstack : s.stack = f :: rest) (hf : f.loop = some f') {t : TaskId} :
    t ∈ s.running ↔ (s.tasks t).borrowed = true := by
  have hheld : f.held = none := by
    rcases Frame.of_loop hf with ⟨rfl, -⟩ | ⟨b, rfl, -⟩ <;> rfl
  constructor
  · intro ht
    rw [running_cons hstack, hheld] at ht
    exact h.borrowed_of_running hstack (by simpa using ht)
  · intro hb
    rw [h.borrowed, borrowing] at hb
    obtain ⟨g, hg, hgt⟩ := List.mem_filterMap.mp hb
    exact List.mem_filterMap.mpr ⟨g, hg, Frame.held_of_borrows hgt⟩

/-- An activation of `run_task` borrows its future or gives it back. -/
lemma Wf.setBorrowed (h : s.Wf) (fs : List Frame) {f : Frame} {rest : List Frame} {t : TaskId}
    (hstack : s.stack = f :: rest) {e : ExecutorTask V} (hexec : e.exec = (s.tasks t).exec)
    (hpipe : e.pipeWr = (s.tasks t).pipeWr) (hh : e.handle = (s.tasks t).handle)
    (halive : s.alive t = true) (hcalling : ∀ g ∈ fs.tail, g.calling = true)
    (hreplaced : ∀ g ∈ fs, g.replaced = none)
    (hheld : fs.filterMap Frame.held = [t] ∨ fs.filterMap Frame.held = [])
    (hnot : t ∉ rest.filterMap Frame.held)
    (hborrows : fs.filterMap Frame.borrows = if e.borrowed then [t] else [])
    (hother : ∀ u, f.borrows = some u → u = t) :
    ((s.setTask t e).setStack (fs ++ rest)).Wf := by
  have hrest : ∀ u, u ∈ rest.filterMap Frame.held → u ∈ s.running := fun u hu => by
    rw [running_cons hstack]
    exact List.mem_append_right _ hu
  have hnotb : t ∉ rest.filterMap Frame.borrows := fun hm => by
    obtain ⟨g, hg, hgt⟩ := List.mem_filterMap.mp hm
    exact hnot (List.mem_filterMap.mpr ⟨g, hg, Frame.held_of_borrows hgt⟩)
  have hrun : ∀ u ∈ ((s.setTask t e).setStack (fs ++ rest)).running,
      u = t ∨ u ∈ rest.filterMap Frame.held := fun u hu => by
    rw [running, Thread.setStack, List.filterMap_append] at hu
    rcases hheld with hheld | hheld <;> rw [hheld] at hu
    · simpa using hu
    · exact .inr hu
  refine ⟨fun u hu => ?_, fun u => ?_, fun u hu => ?_, fun g hg => ?_, fun g hg x hx => ?_, ?_,
    fun u => ?_⟩
  · by_cases hut : u = t
    · exact hut ▸ h.ids t halive
    · refine h.ids u ?_
      rw [alive_iff] at hu ⊢
      rcases hu with hu | hu | hu | hu
      · exact .inl hu
      · exact .inr (.inl (by simpa [Thread.setTask, Thread.setStack, hut] using hu))
      · exact .inr (.inr (.inl (hrest u ((hrun u hu).resolve_left hut))))
      · exact .inr (.inr (.inr hu))
  · by_cases hut : u = t
    · subst hut
      simpa [Thread.setTask, Thread.setStack, hexec] using h.exec u
    · simpa [Thread.setTask, Thread.setStack, hut] using h.exec u
  · by_cases hut : u = t
    · subst hut
      simpa [Thread.setTask, Thread.setStack, hexec, hpipe] using h.pipeWr u hu
    · simpa [Thread.setTask, Thread.setStack, hut] using h.pipeWr u hu
  · have hg' : g ∈ fs.tail ∨ g ∈ rest := by
      cases fs with
      | nil => exact .inr (List.mem_of_mem_tail hg)
      | cons f' fs => simpa [Thread.setStack] using hg
    rcases hg' with hg | hg
    · exact hcalling g hg
    · exact h.calling g (by simpa [hstack] using hg)
  · rcases List.mem_append.mp hg with hg | hg
    · simp [hreplaced g hg] at hx
    · exact h.replaced g (by simp [hstack, hg]) x hx
  · have hnodup := h.nodup
    rw [running_cons hstack] at hnodup
    have hrestnd := hnodup.of_append_right
    rw [running, Thread.setStack, List.filterMap_append]
    rcases hheld with hheld | hheld <;> rw [hheld]
    · exact List.nodup_cons.mpr ⟨hnot, hrestnd⟩
    · exact hrestnd
  · have hb : ((s.setTask t e).setStack (fs ++ rest)).borrowing =
        (if e.borrowed then [t] else []) ++ rest.filterMap Frame.borrows := by
      rw [borrowing, Thread.setStack, List.filterMap_append, hborrows]
    rw [hb]
    by_cases hut : u = t
    · subst hut
      cases heb : e.borrowed <;> simp [Thread.setTask, Thread.setStack, heb, hnotb]
    · have hbu := h.borrowed u
      rw [borrowing_cons hstack] at hbu
      have hfu : u ∉ f.borrows.toList := fun hm => hut (hother u (by simpa using hm))
      have hiu : u ∉ (if e.borrowed then [t] else []) := by
        cases e.borrowed <;> simp [hut]
      simpa only [Thread.setTask, Thread.setStack, Function.update_of_ne hut, List.mem_append, hfu,
        hiu, false_or] using hbu

/-- Another thread gives up its reference to a task. -/
lemma Wf.erase_waking (h : s.Wf) (t : TaskId) :
    ({ s with waking := s.waking.erase t } : Thread V).Wf := by
  refine ⟨fun u hu => h.ids u ?_, h.exec, h.pipeWr, h.calling, h.replaced, h.nodup, h.borrowed⟩
  rw [alive_iff] at hu ⊢
  exact hu.imp_right (Or.imp_right (Or.imp_right List.mem_of_mem_erase))

/-- Spawning a task. -/
lemma Wf.spawn (h : s.Wf) (p : Priority) : (s.spawn p).Wf := by
  have hn : s.alive s.nTasks = false := by
    by_contra hn
    exact (h.ids s.nTasks (by simpa using hn)).false
  have hnr : s.nTasks ∉ s.running := fun hm => by simp [alive_of_running hm] at hn
  have hnb : s.nTasks ∉ s.borrowing := fun hm => by
    obtain ⟨g, hg, hgt⟩ := List.mem_filterMap.mp hm
    exact hnr (List.mem_filterMap.mpr ⟨g, hg, Frame.held_of_borrows hgt⟩)
  have hlt : ∀ {t : TaskId}, t ≠ s.nTasks → t < s.nTasks + 1 → t < s.nTasks := fun ht hlt =>
    lt_of_le_of_ne (Nat.le_of_lt_succ hlt) ht
  rw [Thread.spawn, enqueue_of_not_completed (by simp)]
  refine ⟨fun t ht => ?_, fun t => ?_, fun t ht => ?_, h.calling, h.replaced, h.nodup, fun t => ?_⟩
  · by_cases htn : t = s.nTasks
    · exact htn ▸ Nat.lt_succ_self _
    · refine (h.ids t ?_).trans (Nat.lt_succ_self _)
      rw [alive_iff] at ht ⊢
      simpa [Family.home_push, htn, running] using ht
  · by_cases htn : t = s.nTasks
    · simp [htn]
    · simpa [htn] using h.exec t
  · by_cases htn : t = s.nTasks
    · simp [htn, executor]
    · simpa [htn] using h.pipeWr t (hlt htn ht)
  · by_cases htn : t = s.nTasks
    · subst htn
      simpa [borrowing] using hnb
    · simpa [htn, borrowing] using h.borrowed t

/-- Every move keeps a thread well-formed. -/
theorem Move.wf {a : Action V} (hm : Move s a s') (h : s.Wf) : s'.Wf := by
  cases hm with
  | stay hu heff => exact h.steady heff.steady
  | jump hstack hj =>
    have hs := hj.effects.steady
    exact (h.steady hs).setStack _ (hs.stack.trans hstack) (hj.replaces hstack)
  | crash heff hp => exact (h.steady heff.steady).panic _
  | @selectCrash k f f' rest t hstack hf hfront hb =>
    refine ((h.release t s.log).setStack [f'] hstack ?_).panic _
    rcases Frame.of_loop hf with ⟨rfl, rfl⟩ | ⟨b, rfl, rfl⟩ <;> constructor <;>
      simp [Frame.held, Frame.borrows, Frame.replaced]
  | @select k f f' rest t hstack hf hfront hb =>
    obtain ⟨p, hp⟩ := home_of_front hfront
    have hrun : t ∉ s.running := by
      rw [h.running_iff_borrowed hstack hf]
      simp [hb]
    have hnot : t ∉ rest.filterMap Frame.held := fun ht => hrun (by
      rw [running_cons hstack]
      exact List.mem_append_right _ ht)
    have hset : ((s.setTask t { s.tasks t with borrowed := true }).setStack
        ([.runTask t .polling, f'] ++ rest)).Wf := by
      refine h.setBorrowed _ hstack rfl rfl rfl (alive_of_home hp) ?_ ?_ (.inl ?_) hnot ?_ ?_ <;>
        rcases Frame.of_loop hf with ⟨rfl, rfl⟩ | ⟨b, rfl, rfl⟩ <;>
          simp [Frame.held, Frame.borrows, Frame.replaced, Frame.calling]
    exact (hset.release t s.log).emit _
  | @repoll k s₁ b pc rest hstack hpc heff =>
    have hs := heff.steady
    refine ((h.steady hs).setStack [.blockOn b .polling] (hs.stack.trans hstack) ?_).emit _
    rcases hpc with rfl | rfl <;> constructor <;> simp [Frame.held, Frame.borrows, Frame.replaced]
  | @pending t rest hstack =>
    have hnot := h.nodup
    rw [running_cons hstack] at hnot
    exact h.setBorrowed [.runTask t .settle] (t := t)
      (e := { s.tasks t with borrowed := false }) hstack rfl rfl rfl
      (alive_of_running (by simp [running_cons hstack, Frame.held])) (by simp)
      (by simp [Frame.replaced]) (.inl (by simp [Frame.held])) (List.nodup_cons.mp hnot).1
      (by simp [Frame.borrows]) (by simp [Frame.borrows])
  | @sleep k t rest hstack hq =>
    have hpop := h.setStack [] hstack (by
      constructor <;> simp [Frame.borrows])
    refine ⟨fun u hu => ?_, hpop.exec, hpop.pipeWr, hpop.calling, hpop.replaced, hpop.nodup,
      hpop.borrowed⟩
    by_cases hut : u = t
    · exact h.ids u (alive_of_running (by simp [running_cons hstack, Frame.held, hut]))
    · refine hpop.ids u ?_
      rw [alive_iff] at hu ⊢
      refine hu.imp_left fun hq => ?_
      simpa [Thread.sleep, Thread.setStack, Family.home_push, hut] using hq
  | @ready t rest v hstack =>
    have hset := h.setTask (t := t) (e := { s.tasks t with output := some v, handleWaker := .noop })
      rfl rfl rfl id
    refine (hset.setStack [_] hstack ?_).emit _
    constructor <;> simp [Frame.held, Frame.borrows, Frame.replaced]
  | @complete k t fs rest hstack hfs =>
    have hnot := h.nodup
    rw [running_cons hstack] at hnot
    refine (h.setBorrowed fs (t := t)
      (e := { s.tasks t with hasCompleted := true, borrowed := false }) hstack rfl rfl rfl
      (alive_of_running (by simp [running_cons hstack, Frame.held])) ?_ ?_ (.inr ?_)
      (List.nodup_cons.mp hnot).1 ?_ (by simp [Frame.borrows])).emit _ <;>
        rcases hfs with rfl | rfl <;> simp [Frame.held, Frame.borrows, Frame.replaced]
  | @replace pipeWr rest hstack hfd =>
    have hpop := h.setStack [.run .afterTask] hstack (by
      constructor <;> simp [Frame.held, Frame.borrows, Frame.replaced])
    refine ⟨hpop.ids, fun t => (h.exec t).trans (Nat.le_succ _), fun t ht => ?_, ?_, ?_,
      hpop.nodup, hpop.borrowed⟩
    · have hne : (s.tasks t).exec ≠ s.cur + 1 := ((h.exec t).trans_lt (Nat.lt_succ_self _)).ne
      simpa [setExec, Thread.setStack, hne] using h.pipeWr t ht
    · simpa [setExec, Thread.setStack, hstack] using h.calling
    · intro g hg x hx
      rcases List.mem_cons.mp hg with rfl | hg
      · obtain rfl : s.cur = x := by simpa [Frame.replaced] using hx
        exact Nat.lt_succ_self _
      · exact (h.replaced g (by simp [hstack, hg]) x hx).trans (Nat.lt_succ_self _)
  | @discard k x q t pc rest hstack hq hpc =>
    refine (h.release t _).setStack [.run pc] hstack ?_
    rcases hpc with rfl | rfl <;> constructor <;> simp [Frame.held, Frame.borrows, Frame.replaced]
  | @close k x rest hstack =>
    have hs := steady_setExec s (x := x) (e := { s.execs x with isOpen := false }) rfl
    refine ((h.steady hs).setStack [] hstack ?_).emit _
    constructor <;> simp [Frame.held, Frame.borrows]
  | spawn hu => exact h.spawn _
  | @abort t hu hh => exact h.release t _
  | @handle a t e hu hh he =>
    exact h.setTask (by rw [he]) (by rw [he]) (by rw [he]) fun _ => hh
  | shutdown hu => exact h.steady (steady_setExec s rfl)
  | blockOn hu =>
    obtain ⟨f, rest, hstack, hf⟩ := exists_of_inUserCode hu
    have hpush := h.setStack [.blockOn s.nBlockOns .polling, f] hstack
      (.push hf rfl rfl rfl)
    have hs : s.stack = [f] ++ rest := hstack
    simp only [enterBlockOn, hs]
    exact ⟨hpush.ids, hpush.exec, hpush.pipeWr, hpush.calling, hpush.replaced, hpush.nodup,
      hpush.borrowed⟩
  | fdNew hu => exact h.steady (fdNew_steady s _ _ _ _)
  | fdDrop hu hlive => exact h.steady (fdDrop_steady s _)
  | @enterPollWith f cx k hu =>
    obtain ⟨g, rest, hstack, hg⟩ := exists_of_inUserCode hu
    have hpush := h.setStack [.pollWith f cx, g] hstack (.push hg rfl rfl rfl)
    have hs : s.stack = [g] ++ rest := hstack
    rw [hs]
    exact ⟨hpush.ids, hpush.exec, hpush.pipeWr, hpush.calling, hpush.replaced, hpush.nodup,
      hpush.borrowed⟩
  | @closure r f cx ew rest hstack =>
    have hpop := h.setStack [] hstack (by
      constructor <;> simp [Frame.held, Frame.borrows])
    exact ⟨hpop.ids, hpop.exec, hpop.pipeWr, hpop.calling, hpop.replaced, hpop.nodup, hpop.borrowed⟩
  | @foreignUpgrade t halive =>
    refine ⟨fun u hu => ?_, h.exec, h.pipeWr, h.calling, h.replaced, h.nodup, h.borrowed⟩
    by_cases hut : u = t
    · exact h.ids u (hut ▸ halive)
    · refine h.ids u ?_
      rw [alive_iff] at hu ⊢
      exact hu.imp_right (Or.imp_right (Or.imp_right fun hm => by simpa [hut] using hm))
  | @foreignWrite t => exact (h.erase_waking t).steady (foreignWrite_effects s t).steady
  | @foreignBlockOn b => exact h.steady (foreignBlockOn_effects s b).steady

/-- A thread is well-formed at its start. -/
lemma IsStart.wf (h : s.IsStart) : s.Wf := by
  obtain ⟨pipeWr, pipeCapacity, -, rfl⟩ := h
  have hheld : [Frame.user].filterMap Frame.held = [] := rfl
  have hborrows : [Frame.user].filterMap Frame.borrows = [] := rfl
  have hhandle : (default : ExecutorTask V).handle = false := rfl
  have hexec : (default : ExecutorTask V).exec = 0 := rfl
  have hborrowed : (default : ExecutorTask V).borrowed = false := rfl
  constructor <;> simp [start, alive_iff, running, borrowing, hheld, hborrows, hhandle, hexec,
    hborrowed, Frame.replaced]

/-- Every reachable thread is well-formed. -/
theorem wf_of_reachable (h : Reachable step IsStart s) : s.Wf :=
  h.invariant (fun _ => IsStart.wf) fun _ _ _ _ hwf _ hs => (move_of_step hs).2.wf hwf

/-- Only an upgrade lets another thread hold one more reference, and only to a task that is alive. -/
lemma waking_of_step {a : Action V} {t : TaskId} (h : s.step a = some s') (ht : t ∈ s'.waking) :
    t ∈ s.waking ∨ a.isForeign = true ∧ s.alive t = true := by
  cases (move_of_step h).2 with
  | stay hu heff => exact .inl (heff.steady.waking ▸ ht)
  | jump hstack hj => exact .inl (hj.effects.steady.waking ▸ ht)
  | crash heff hp => exact .inl (heff.steady.waking ▸ ht)
  | repoll hstack hpc heff => exact .inl (heff.steady.waking ▸ ht)
  | spawn hu =>
    rw [Thread.spawn, enqueue_of_not_completed (by simp)] at ht
    exact .inl ht
  | @fdNew raw events fcntl ctl hu => exact .inl ((fdNew_steady s raw events fcntl ctl).waking ▸ ht)
  | @foreignUpgrade u halive =>
    rcases List.mem_cons.mp ht with rfl | ht
    · exact .inr ⟨rfl, halive⟩
    · exact .inl ht
  | @foreignWrite u =>
    have hw := (foreignWrite_effects s u).steady.waking
    exact .inl (List.mem_of_mem_erase (hw ▸ ht))
  | @foreignBlockOn b => exact .inl ((foreignBlockOn_effects s b).steady.waking ▸ ht)
  | _ => exact .inl ht

/-! ## The top of the stack -/

/-- What is on top of the stack after a move of a thread that has not panicked. -/
inductive Top (s : Thread V) (a : Action V) (s' : Thread V) : Prop
  /-- Code of the caller, or a loop that it returns to. -/
  | calling (h : ∀ f ∈ s'.stack.head?, f.calling = true)
  /-- Library code outside of the loops. -/
  | passing {f : Frame} {rest : List Frame} (h : s'.stack = f :: rest) (hf : f.passing = true)
  | jump {f g : Frame} {fs rest : List Frame} {s₁ : Thread V} (hstack : s.stack = f :: rest)
      (hj : Jump s a s₁ f (g :: fs)) (hs : s' = s₁.setStack (g :: fs ++ rest))
  /-- Another thread has done something. -/
  | foreignUpgrade {t : TaskId} (hs : s' = { s with waking := t :: s.waking })
  | foreignWrite {t : TaskId} (ha : a = .foreignWrite t) (hs : s' = s.foreignWrite t)
  | foreignBlockOn {b : BlockOnId} (ha : a = .foreignBlockOn b) (hs : s' = s.foreignBlockOn b)

/-- What lies below the top of the stack can have frames above it. -/
lemma Wf.top_of_pop (h : s.Wf) {a : Action V} {f : Frame} {rest : List Frame}
    (hstack : s.stack = f :: rest) (hstack' : s'.stack = rest) : Top s a s' := by
  refine .calling fun g hg => h.calling g ?_
  rw [hstack'] at hg
  simpa [hstack] using List.mem_of_mem_head? hg

/-- Code of the caller can have frames above it. -/
lemma top_of_inUserCode {a : Action V} (hu : s.inUserCode = true) (hstack' : s'.stack = s.stack) :
    Top s a s' := by
  obtain ⟨f, rest, hstack, hf⟩ := exists_of_inUserCode hu
  refine .calling fun g hg => ?_
  obtain rfl : f = g := by simpa [hstack', hstack] using hg
  exact hf

/-- What is on top of the stack after a move. -/
lemma Move.top {a : Action V} (hm : Move s a s') (hwf : s.Wf) (hp : s'.panicked = none) :
    Top s a s' := by
  cases hm with
  | stay hu heff => exact top_of_inUserCode hu heff.steady.stack
  | @jump _ s₁ f fs rest hstack hj =>
    cases fs with
    | nil => exact hwf.top_of_pop hstack rfl
    | cons g fs => exact .jump hstack hj rfl
  | crash heff hcrash => simp [Thread.panic] at hp
  | selectCrash hstack hf hfront hb => simp [Thread.panic] at hp
  | sleep hstack | close hstack | closure hstack => exact hwf.top_of_pop hstack rfl
  | complete hstack hfs =>
    rcases hfs with rfl | rfl
    · exact hwf.top_of_pop hstack rfl
    · exact .calling (by simp [Thread.emit, Thread.setStack, Frame.calling])
  | discard hstack hq hpc =>
    rcases hpc with rfl | rfl
    · exact .passing rfl rfl
    · exact .calling (by simp [Thread.setStack, Frame.calling])
  | pending | ready | replace => exact .passing rfl rfl
  | spawn hu =>
    refine top_of_inUserCode hu ?_
    rw [Thread.spawn, enqueue_of_not_completed (by simp)]
  | abort hu | handle hu | shutdown hu => exact top_of_inUserCode hu rfl
  | fdNew hu => exact top_of_inUserCode hu (fdNew_steady s _ _ _ _).stack
  | fdDrop hu => exact top_of_inUserCode hu (fdDrop_steady s _).stack
  | foreignUpgrade halive => exact .foreignUpgrade rfl
  | foreignWrite => exact .foreignWrite rfl rfl
  | foreignBlockOn => exact .foreignBlockOn rfl rfl
  | select | repoll | blockOn | enterPollWith =>
    exact .calling (by simp [Thread.emit, Thread.setStack, enterBlockOn, Frame.calling])

end Thread

end Epox

import Epox.Executor.Closures
import Epox.Process.Names

/-!
# Full and half-closed pipes

The pipe of an executor does not block and holds a bounded number of pointers, and when the executor is
dropped its read end is closed before its write end.  `Piped V` is a process together with the read ends
that have been closed, the threads whose thread-local storage has been destroyed, and the wakes that the
threads are carrying out.

A wake of a task upgrades its weak reference, calls `exec` to enqueue the task or to write its pointer to
the pipe, and releases the reference before `exec` returns.  Between these steps the other threads go on.
If they let go of the task meanwhile, the future is dropped inside `exec`, and its destructor must not use
the executor, which is borrowed; `epoll_wait` can come to this as well.

A wake should panic on no thread, and reach every executor that is alive.  `wake_delivers_iff` states when
it does.
-/

namespace Epox

/-- An upgraded reference to a task that a thread is about to give up. -/
inductive WakeCall
  /-- In `task_waker::wake`, about to call `exec`. -/
  | upgraded (t : TaskId)
  /-- In the closure given to `exec`, which has woken the task. -/
  | woken (t : TaskId)
  /-- In `epoll_wait`, which does not enqueue the task because it has completed. -/
  | received (t : TaskId)
  /-- In the destructor of the future, called inside `exec` with the last reference to the task. -/
  | dropping (t : TaskId) (w : Option Waker)
  deriving DecidableEq

/-- The executor of the thread is borrowed. -/
def WakeCall.borrows : WakeCall → Bool
  | .upgraded _ => false
  | .woken _ | .received _ | .dropping _ _ => true

/-- A process, the ends of its pipes, and what its threads do with upgraded references. -/
structure Piped (V : Type) where
  process : Process V
  /-- The read end of the pipe of the executor has been closed. -/
  readClosed : ExecId → Bool
  /-- The thread-local storage of the thread has been destroyed. -/
  gone : ThreadId → Bool
  /-- The references the thread is about to give up, innermost first. -/
  calls : ThreadId → List WakeCall
  /-- The wakes that have panicked. -/
  panics : List (ThreadId × Waker)

/-- What the environment decides about a wake. -/
structure WakeAnswers where
  /-- The descriptor of the new pipe if the thread uses its executor for the first time; `none` if
  `Executor::new` fails. -/
  init : Option RawFd
  /-- The answer to `epoll_wait`. -/
  wait : KernelAnswer
  /-- A file other than the pipe of an executor takes what is written to it. -/
  accepts : Bool

namespace Piped

variable {V : Type} {p p' q : Piped V}

/-! ## Wakes -/

/-- The thread has called `exec` and is in its closure. -/
def borrowed (p : Piped V) (i : ThreadId) : Bool := (p.calls i).any WakeCall.borrows

/-- `exec`, up to the closure that it calls: the thread uses its executor, possibly for the first time.
`none` if the executor is borrowed already, the thread-local storage has been destroyed, or
`Executor::new` fails. -/
def enter (p : Piped V) (i : ThreadId) (init : Option RawFd) : Option (Piped V × ExecId) :=
  if p.borrowed i then
    none
  else
    match p.process.current i with
    | some x => some (p, x)
    | none =>
      if p.gone i then
        none
      else
        init.map fun fd => ({ p with process := p.process.newExecutor i fd }, p.process.nExecs)

/-- `write` fails before it writes: nobody can read from the pipe (`EPIPE`), or the file does not take
what is written. -/
def refuses (p : Piped V) (o : WakeAnswers) : Op → Bool
  | .write (.pipe x) _ => p.readClosed x
  | .write (.other _) _ => !o.accepts
  | _ => false

/-- Carry out an operation.  The flag tells that it does not panic. -/
def perform (p : Piped V) (o : WakeAnswers) (op : Op) : Piped V × Bool :=
  if p.refuses o op then
    (p, false)
  else
    let r := p.process.perform o.wait op
    ({ p with process := r.1 }, r.2)

/-- Carry out operations, up to the first one that panics. -/
def performAll (p : Piped V) (o : WakeAnswers) : List Op → Piped V × Bool
  | [] => (p, true)
  | op :: ops =>
    match p.perform o op with
    | (p', true) => p'.performAll o ops
    | (p', false) => (p', false)

/-- `exec` and its closure in a wake, called on the thread `i`.  The flag tells that it does not panic. -/
def invoke (p : Piped V) (i : ThreadId) (o : WakeAnswers) (w : Waker) : Piped V × Bool :=
  match w with
  | .task t =>
    match p.enter i o.init with
    | some (q, x) => q.performAll o (q.process.taskWake x t)
    | none => (p, false)
  | .blockOn pipeWr _ =>
    match p.enter i o.init with
    | some (q, x) => q.performAll o (q.process.blockOnWake x pipeWr)
    | none => (p, false)
  | .noop => (p, true)
  | .other _ => (p, true)

/-- The code of the thread may call a waker: it is not in the middle of a wake, unless in a destructor. -/
def free (p : Piped V) (i : ThreadId) : Bool :=
  match p.calls i with
  | [] => true
  | .dropping _ _ :: _ => true
  | _ => false

/-- The thread is about to call `exec` in a wake. -/
def ready (p : Piped V) (i : ThreadId) : Waker → Bool
  | .task t => (p.calls i).head? == some (.upgraded t)
  | .blockOn _ _ | .noop | .other _ => p.free i

/-- Replace what the thread is doing with upgraded references. -/
def setCalls (p : Piped V) (i : ThreadId) (l : List WakeCall) : Piped V :=
  { p with calls := Function.update p.calls i l }

/-- Give up a reference to a task. -/
def release (p : Piped V) (t : TaskId) : Piped V :=
  { p with
    process := p.process.setMemory
      { p.process.memory with waking := p.process.memory.waking.erase t } }

/-- The closure has woken what the waker stands for; that of a task goes on to give up its reference. -/
def advance (p : Piped V) (i : ThreadId) : Piped V :=
  match p.calls i with
  | .upgraded t :: rest => p.setCalls i (.woken t :: rest)
  | _ => p

/-- The wake panics, and its reference is given up. -/
def fail (p : Piped V) (i : ThreadId) (w : Waker) : Piped V :=
  let p' := { p with panics := (i, w) :: p.panics }
  match p.calls i with
  | .upgraded t :: rest => (p'.setCalls i rest).release t
  | _ => p'

/-- `exec` is called by a wake. -/
def wake (p : Piped V) (i : ThreadId) (w : Waker) (o : WakeAnswers) : Piped V :=
  let r := p.invoke i o w
  if r.2 then r.1.advance i else r.1.fail i w

/-- The reference is given up inside `exec`.  If it is the last one, the future is dropped; `w` is the waker
if this is done by a wake. -/
def letGo (p : Piped V) (i : ThreadId) (t : TaskId) (w : Option Waker) (rest : List WakeCall) : Piped V :=
  let p' := p.release t
  p'.setCalls i (if p'.process.memory.alive t then rest else .dropping t w :: rest)

/-- The thread takes a step that uses its executor.  A destructor that is called inside `exec` cannot do so:
it panics, and so does the call of `exec`. -/
def use (p : Piped V) (i : ThreadId) (a : ProcessAction V) : Option (Piped V) :=
  match p.calls i with
  | [] => (p.process.step a).map fun P => { p with process := P }
  | .dropping _ w :: rest =>
    (p.process.step a).map fun _ => { p.setCalls i rest with panics := w.toList.map (i, ·) ++ p.panics }
  | _ => none

/-- The answers are those of a kernel: a new descriptor is not in use, and `epoll_wait` is answered as
`Thread.answers` states. -/
def grants (p : Piped V) (i : ThreadId) (o : WakeAnswers) : Bool :=
  (o.init.all fun fd => decide (p.process.files fd = none)) &&
    (p.enter i o.init).all fun r => decide ((r.1.process.on r.2).answers o.wait)

end Piped

/-! ## Steps -/

/-- The queues of the executor have been dropped. -/
def Process.drained {V : Type} (P : Process V) (x : ExecId) : Bool :=
  [.runqHigh, .runqNormal, .runqLow, .sleepq].all fun q => (P.memory.queues.list (x, q)).isEmpty

/-- The thread the executor of which a step uses, apart from what a poll does when it returns. -/
def ProcessAction.user {V : Type} : ProcessAction V → Option ThreadId
  | .start i _ | .replace i _ | .spawn i _ | .blockOn i | .wait i _ | .poll i | .abort i _ => some i
  | .fdNew i _ _ _ _ | .fdDrop i _ => some i
  | _ => none

/-- What happens next. -/
inductive PipedAction (V : Type)
  /-- Anything but a wake. -/
  | process (a : ProcessAction V)
  /-- A replaced executor, the queues of which have been dropped, closes the read end of its pipe. -/
  | closeRead (x : ExecId)
  /-- The thread invokes a waker of the task, which upgrades its weak reference. -/
  | upgrade (i : ThreadId) (t : TaskId)
  /-- A wake on the thread calls `exec`. -/
  | wake (i : ThreadId) (w : Waker) (o : WakeAnswers)
  /-- `epoll_wait` on the thread upgrades a weak reference to a task that has completed. -/
  | receive (i : ThreadId) (t : TaskId)
  /-- The thread gives up the reference that it has upgraded. -/
  | letGo (i : ThreadId)
  /-- The destructor of a future has returned. -/
  | dropped (i : ThreadId)

namespace Piped

variable {V : Type} {p p' q : Piped V}

/-- One step: a wake may panic, which ends it and nothing else. -/
def step (p : Piped V) : PipedAction V → Option (Piped V)
  | .process (.wake _ _ _) => none
  | .process (.upgrade _) => none
  | .process (.release _) => none
  | .process (.exit i) =>
    if p.calls i = [] then
      (p.process.step (.exit i)).map fun P =>
        { p with process := P, gone := Function.update p.gone i true }
    else
      none
  | .process (.pending i t) =>
    if p.calls i = [] then
      (p.process.step (.pending i t)).map fun P => { p with process := P }
    else
      none
  | .process (.close x) =>
    if p.readClosed x then
      (p.process.step (.close x)).map fun P => { p with process := P }
    else
      none
  | .process (.start i pipeWr) => if p.gone i then none else p.use i (.start i pipeWr)
  | .process a =>
    match a.user with
    | some i => p.use i a
    | none => (p.process.step a).map fun P => { p with process := P }
  | .closeRead x =>
    if x < p.process.nExecs ∧ (p.process.memory.execs x).isOpen ∧ p.process.replaced x ∧
        p.process.drained x then
      some { p with readClosed := Function.update p.readClosed x true }
    else
      none
  | .upgrade i t =>
    if p.process.memory.knows (.task t) ∧ p.free i then
      (p.process.step (.upgrade t)).map fun P =>
        { p with process := P }.setCalls i
          (if p.process.memory.alive t then .upgraded t :: p.calls i else p.calls i)
    else
      none
  | .wake i w o =>
    if p.process.memory.knows w ∧ p.ready i w ∧ p.grants i o then some (p.wake i w o) else none
  | .receive i t =>
    if p.calls i = [] ∧ p.process.memory.alive t ∧ (p.process.memory.tasks t).hasCompleted then
      (p.process.step (.upgrade t)).map fun P => { p with process := P }.setCalls i [.received t]
    else
      none
  | .letGo i =>
    match p.calls i with
    | .woken t :: rest => some (p.letGo i t (some (.task t)) rest)
    | .received t :: rest => some (p.letGo i t none rest)
    | _ => none
  | .dropped i =>
    match p.calls i with
    | .dropping _ _ :: rest => some (p.setCalls i rest)
    | _ => none

/-- A process that has created no executor yet. -/
def start (V : Type) (pipeCapacity : ℕ) : Piped V where
  process := Process.start V pipeCapacity
  readClosed _ := false
  gone _ := false
  calls _ := []
  panics := []

/-- A process at its start; some pointer fits into a pipe. -/
def IsStart (p : Piped V) : Prop := ∃ pipeCapacity, 0 < pipeCapacity ∧ p = start V pipeCapacity

/-! ## What a thread finds -/

/-- Every step keeps the numbers of the process right. -/
lemma wf_perform (h : p.process.Wf) (o : WakeAnswers) (op : Op) : (p.perform o op).1.process.Wf := by
  unfold perform
  split_ifs
  · exact h
  · exact h.perform o.wait op

/-- Every sequence of operations keeps the numbers of the process right. -/
lemma wf_performAll (h : p.process.Wf) (o : WakeAnswers) (ops : List Op) :
    (p.performAll o ops).1.process.Wf := by
  induction ops generalizing p with
  | nil => exact h
  | cons op ops ih =>
    have hp := wf_perform h o op
    rw [performAll]
    cases hop : p.perform o op with
    | mk p' ok =>
      rw [hop] at hp
      cases ok
      · exact hp
      · exact ih hp

/-- What a thread finds when it uses its executor: it may be a new one, but the others are as before. -/
structure Entered (p : Piped V) (i : ThreadId) (q : Piped V) (x : ExecId) : Prop where
  wf : q.process.Wf
  current : q.process.current i = some x
  tasks : q.process.memory.tasks = p.process.memory.tasks
  nTasks : q.process.memory.nTasks = p.process.memory.nTasks
  nBlockOns : q.process.memory.nBlockOns = p.process.memory.nBlockOns
  blockOnPipe : q.process.memory.blockOnPipe = p.process.memory.blockOnPipe
  blockOnExec : q.process.blockOnExec = p.process.blockOnExec
  alive : ∀ t, q.process.memory.alive t = p.process.memory.alive t
  running : ∀ y, ¬ p.process.replaced y → ¬ q.process.replaced y

/-- What a thread finds when it uses its executor. -/
lemma entered (h : p.process.Wf) {i : ThreadId} {o : WakeAnswers} (ho : p.grants i o = true)
    {x : ExecId} (henter : p.enter i o.init = some (q, x)) : Entered p i q x := by
  obtain ⟨hfree, -⟩ : (∀ fd, o.init = some fd → p.process.files fd = none) ∧ _ := by
    simpa [grants, Option.all_eq_true] using ho
  unfold enter at henter
  split at henter
  · simp at henter
  split at henter
  · rename_i y hcur
    obtain ⟨rfl, rfl⟩ := Prod.mk.inj (Option.some.inj henter)
    exact ⟨h, hcur, rfl, rfl, rfl, rfl, rfl, fun _ => rfl, fun _ => id⟩
  · rename_i hcur
    split_ifs at henter
    obtain ⟨fd, hinit, hq⟩ := Option.map_eq_some_iff.mp henter
    obtain ⟨rfl, rfl⟩ := Prod.mk.inj hq
    refine ⟨h.newExecutor (hfree fd hinit), by simp [Process.newExecutor], rfl, rfl, rfl, rfl, rfl,
      fun _ => rfl, fun y hy => ?_⟩
    have hy : p.process.current (p.process.owner y) = some y := not_not.mp hy
    obtain ⟨hlt, -, -⟩ := h.current _ y hy
    have hne : p.process.owner y ≠ i := by
      intro heq
      simp [heq, hcur] at hy
    simp [Process.replaced, Process.newExecutor, hlt.ne, hne, hy]

/-- What is done inside `exec` leaves the references to give up and the panics alone. -/
lemma performAll_calls (p : Piped V) (o : WakeAnswers) (ops : List Op) :
    (p.performAll o ops).1.calls = p.calls ∧ (p.performAll o ops).1.panics = p.panics := by
  induction ops generalizing p with
  | nil => exact ⟨rfl, rfl⟩
  | cons op ops ih =>
    have hp : (p.perform o op).1.calls = p.calls ∧ (p.perform o op).1.panics = p.panics := by
      unfold perform
      split_ifs <;> exact ⟨rfl, rfl⟩
    rw [performAll]
    cases hop : p.perform o op with
    | mk p₁ ok =>
      rw [hop] at hp
      cases ok
      · exact hp
      · exact ⟨(ih p₁).1.trans hp.1, (ih p₁).2.trans hp.2⟩

/-- Using an executor leaves the references to give up and the panics alone. -/
lemma enter_calls {i : ThreadId} {init : Option RawFd} {x : ExecId} (h : p.enter i init = some (q, x)) :
    q.calls = p.calls ∧ q.panics = p.panics := by
  unfold enter at h
  split at h
  · simp at h
  split at h
  · obtain ⟨rfl, -⟩ := Prod.mk.inj (Option.some.inj h)
    exact ⟨rfl, rfl⟩
  · split_ifs at h
    obtain ⟨fd, -, hq⟩ := Option.map_eq_some_iff.mp h
    obtain ⟨rfl, -⟩ := Prod.mk.inj hq
    exact ⟨rfl, rfl⟩

/-- A wake leaves the references to give up and the panics alone, as far as `exec` goes. -/
lemma invoke_calls (p : Piped V) (i : ThreadId) (o : WakeAnswers) (w : Waker) :
    (p.invoke i o w).1.calls = p.calls ∧ (p.invoke i o w).1.panics = p.panics := by
  cases w with
  | task t | blockOn pipeWr b =>
    simp only [invoke]
    split
    · rename_i q x henter
      obtain ⟨hcalls, hpanics⟩ := enter_calls henter
      exact ⟨(performAll_calls q o _).1.trans hcalls, (performAll_calls q o _).2.trans hpanics⟩
    · exact ⟨rfl, rfl⟩
  | noop | other j => exact ⟨rfl, rfl⟩

/-- What `exec` does in a wake keeps the numbers of the process right. -/
lemma wf_invoke (h : p.process.Wf) {i : ThreadId} {o : WakeAnswers} (ho : p.grants i o = true)
    (w : Waker) : (p.invoke i o w).1.process.Wf := by
  cases w with
  | task t | blockOn pipeWr b =>
    simp only [invoke]
    split
    · rename_i q x henter
      exact wf_performAll (entered h ho henter).wf o _
    · exact h
  | noop | other j => exact h

/-- Giving up a reference keeps the numbers of the process right. -/
lemma wf_release (h : p.process.Wf) (t : TaskId) : (p.release t).process.Wf :=
  h.setMemory ⟨fun _ => rfl, fun _ => rfl, rfl, fun _ => rfl, fun _ => rfl, rfl, rfl⟩

/-- A step that uses an executor keeps the numbers of the process right. -/
lemma wf_use (h : p.process.Wf) {i : ThreadId} {a : ProcessAction V} (hs : p.use i a = some p') :
    p'.process.Wf := by
  unfold use at hs
  split at hs
  · obtain ⟨P, hP, rfl⟩ := Option.map_eq_some_iff.mp hs
    exact h.step hP
  · obtain ⟨P, -, rfl⟩ := Option.map_eq_some_iff.mp hs
    exact h
  · simp at hs

/-- Every step keeps the numbers of the process right. -/
lemma wf_step {a : PipedAction V} (h : p.process.Wf) (hs : p.step a = some p') : p'.process.Wf := by
  have hstep : ∀ (b : ProcessAction V) (f : Process V → Piped V), (∀ P, (f P).process = P) →
      (p.process.step b).map f = some p' → p'.process.Wf := by
    intro b f hf hs
    obtain ⟨P, hP, rfl⟩ := Option.map_eq_some_iff.mp hs
    exact (hf P).symm ▸ h.step hP
  have hset : ∀ P : Process V, ({ p with process := P } : Piped V).process = P := fun _ => rfl
  cases a with
  | process b =>
    cases b with
    | wake i w k | upgrade t | release t => simp [step] at hs
    | exit i =>
      simp only [step] at hs
      split_ifs at hs
      exact hstep (.exit i) (fun P => { p with process := P, gone := Function.update p.gone i true })
        (fun _ => rfl) hs
    | pending i t | close x =>
      simp only [step] at hs
      split_ifs at hs
      exact hstep _ _ hset hs
    | start i pipeWr =>
      simp only [step] at hs
      split_ifs at hs
      exact wf_use h hs
    | replace i pipeWr | spawn i priority | blockOn i | wait i k | poll i | abort i t
    | fdNew i raw events fcntl ctl | fdDrop i f => exact wf_use h hs
    | discard x t | openFile fd j | closeFile fd | complete t => exact hstep _ _ hset hs
    | dropHandle t => exact hstep (.dropHandle t) _ hset hs
    | pollWith f ew b => exact hstep (.pollWith f ew b) _ hset hs
  | closeRead x =>
    simp only [step] at hs
    split_ifs at hs
    exact Option.some.inj hs ▸ h
  | upgrade i t =>
    simp only [step] at hs
    split at hs
    · exact hstep _ _ (fun _ => rfl) hs
    · simp at hs
  | wake i w o =>
    simp only [step] at hs
    split_ifs at hs with hcond
    obtain rfl := Option.some.inj hs
    have hwf := wf_invoke h hcond.2.2 w
    simp only [wake]
    split_ifs
    · unfold advance
      split <;> exact hwf
    · unfold fail
      split
      · exact wf_release hwf _
      · exact hwf
  | receive i t =>
    simp only [step] at hs
    split_ifs at hs
    exact hstep (.upgrade t) (fun P => ({ p with process := P } : Piped V).setCalls i [.received t])
      (fun _ => rfl) hs
  | letGo i =>
    simp only [step] at hs
    split at hs
    · exact Option.some.inj hs ▸ wf_release h _
    · exact Option.some.inj hs ▸ wf_release h _
    · simp at hs
  | dropped i =>
    simp only [step] at hs
    split at hs
    · exact Option.some.inj hs ▸ h
    · simp at hs

/-- In every reachable state the numbers of the process are right. -/
lemma wf_of_reachable (h : Reachable step IsStart p) : p.process.Wf := by
  refine h.invariant (P := fun p => p.process.Wf) ?_ fun _ _ _ _ hwf _ hs => wf_step hwf hs
  rintro p ⟨pipeCapacity, hpos, rfl⟩
  exact Process.wf_of_reachable (.init ⟨pipeCapacity, hpos, rfl⟩)

/-! ## Which wakes get through -/

/-- A write to the descriptor succeeds, or finds it closed: it is not in use, it is the pipe of an executor
that can be read from and has room, or another file that takes what is written. -/
def Writable (p : Piped V) (o : WakeAnswers) (fd : RawFd) : Prop :=
  match p.process.files fd with
  | none => True
  | some (.pipe z) => p.readClosed z = false ∧
      (p.process.memory.execs z).pipe.length < p.process.memory.pipeCapacity
  | some (.other _) => o.accepts = true

/-- The waker gets through on a thread whose executor is `x`: by itself, if the number of the pipe is that
of `x`; a task that wakes itself checks for events then, none of which is for a borrowed `Fd`.  Otherwise
the descriptor has to be writable. -/
def Passes (p : Piped V) (o : WakeAnswers) (x : ExecId) : Waker → Prop
  | .task t =>
    if (p.process.memory.tasks t).pipeWr = (p.process.memory.execs x).pipeWr then
      (p.process.memory.tasks t).borrowed = true →
        ∀ f e, .fd f e ∈ o.wait.list → (p.process.memory.fds f).borrowed = false
    else
      p.Writable o (p.process.memory.tasks t).pipeWr
  | .blockOn pipeWr _ =>
    pipeWr = (p.process.memory.execs x).pipeWr ∨ p.Writable o pipeWr
  | .noop => True
  | .other _ => True

/-- A wake by the thread gets through: the thread can use its executor, and the waker gets through from
there. -/
def Admits (p : Piped V) (i : ThreadId) (o : WakeAnswers) : Waker → Prop
  | .task t => ∃ q x, p.enter i o.init = some (q, x) ∧ q.Passes o x (.task t)
  | .blockOn pipeWr b => ∃ q x, p.enter i o.init = some (q, x) ∧ q.Passes o x (.blockOn pipeWr b)
  | .noop => True
  | .other _ => True

/-- No wake comes to grief in the step: one that calls `exec` gets through, and a destructor that is called
inside `exec` does not use the executor. -/
def Accepts (p : Piped V) : PipedAction V → Prop
  | .wake i w o => p.Admits i o w
  | .process a => ∀ i, a.user = some i → ∀ t w rest, p.calls i ≠ .dropping t (some w) :: rest
  | _ => True

/-- The wake has reached the executor `y`: the task is in its run queue or its pointer in the pipe, unless
it has completed; a `block_on` is one of the thread itself, or there is a null pointer in the pipe. -/
def Delivered (p : Piped V) (i : ThreadId) (y : ExecId) : Waker → Prop
  | .task t => (p.process.memory.tasks t).hasCompleted = true ∨
      p.process.memory.queues.home t = some (y, runq (p.process.memory.tasks t).priority) ∨
        some t ∈ (p.process.memory.execs y).pipe
  | .blockOn _ _ => p.process.current i = some y ∨ none ∈ (p.process.memory.execs y).pipe
  | .noop => True
  | .other _ => True

/-- In the step from `p` to `p'` no wake panics, and one that calls `exec` reaches the executor it is for
while this is alive. -/
def Kept (p : Piped V) (a : PipedAction V) (p' : Piped V) : Prop :=
  p'.panics = p.panics ∧ ∀ i w o, a = .wake i w o → ∀ y, p.process.creator w = some y →
    ¬ p.process.replaced y → p'.Delivered i y w

/-- A write does not panic exactly if the descriptor is writable. -/
lemma performAll_writeTo (o : WakeAnswers) (fd : RawFd) (ptr : Option TaskId) :
    (p.performAll o (p.process.writeTo fd ptr)).2 = true ↔ p.Writable o fd := by
  unfold Process.writeTo Writable
  cases p.process.files fd with
  | none => simp [performAll]
  | some file =>
    cases file with
    | pipe z =>
      by_cases hclosed : p.readClosed z = true
      · simp [performAll, perform, refuses, hclosed]
      · by_cases hroom : (p.process.memory.execs z).pipe.length < p.process.memory.pipeCapacity
        · simp [performAll, perform, refuses, hclosed, Process.perform, hroom]
        · simp [performAll, perform, refuses, hclosed, Process.perform, hroom]
    | other j => cases ho : o.accepts <;> simp [performAll, perform, refuses, ho, Process.perform]

/-- A write that succeeds on the pipe of an executor leaves the pointer there. -/
lemma mem_pipe_of_writeTo {o : WakeAnswers} {fd : RawFd} {ptr : Option TaskId} {y : ExecId}
    (hfile : p.process.files fd = some (.pipe y))
    (hok : (p.performAll o (p.process.writeTo fd ptr)).2 = true) :
    ptr ∈ ((p.performAll o (p.process.writeTo fd ptr)).1.process.memory.execs y).pipe := by
  have hw := (performAll_writeTo o fd ptr).mp hok
  simp only [Writable, hfile] at hw
  simp [Process.writeTo, hfile, performAll, perform, refuses, hw.1, Process.perform, hw.2,
    Process.setMemory, Thread.setExec]

/-- Enqueueing a task does not panic. -/
lemma performAll_enqueue (p : Piped V) (o : WakeAnswers) (x : ExecId) (t : TaskId) :
    let r := p.performAll o
      (if (p.process.memory.tasks t).hasCompleted then [] else [.enqueue x t])
    r.2 = true ∧ ((r.1.process.memory.tasks t).hasCompleted = true ∨
      r.1.process.memory.queues.home t = some (x, runq (r.1.process.memory.tasks t).priority)) := by
  by_cases hc : (p.process.memory.tasks t).hasCompleted = true
  · simp [hc, performAll]
  · have henqueue := Thread.enqueue_of_not_completed (s := p.process.on x) (t := t) (by
      simpa [Process.on] using hc)
    rw [if_neg hc]
    refine ⟨rfl, .inr ?_⟩
    change ((p.process.on x).enqueue t).queues.home t =
      some (x, runq (((p.process.on x).enqueue t).tasks t).priority)
    rw [henqueue]
    simp [Process.on]

/-- Operations on the executor `x` itself do not panic exactly if `epoll_wait`, where it is called, does
not. -/
lemma performAll_direct (p : Piped V) (o : WakeAnswers) (x : ExecId) (t : TaskId) :
    let r := p.performAll o ((if (p.process.memory.tasks t).borrowed then [.wait x] else []) ++
      (if (p.process.memory.tasks t).hasCompleted then [] else [.enqueue x t]))
    (r.2 = true ↔ ((p.process.memory.tasks t).borrowed = true →
      ((p.process.on x).epollWait o.wait).panicked = none)) ∧
    (r.2 = true → (r.1.process.memory.tasks t).hasCompleted = true ∨
      r.1.process.memory.queues.home t = some (x, runq (r.1.process.memory.tasks t).priority)) := by
  by_cases hb : (p.process.memory.tasks t).borrowed = true
  · have heff := Thread.epollWait_effects (p.process.on x) o.wait
    have hmem : ((p.process.on x).epollWait o.wait).ignoreErr.memory =
        ((p.process.on x).epollWait o.wait).memory ∧
          ((p.process.on x).epollWait o.wait).ignoreErr.panicked =
            ((p.process.on x).epollWait o.wait).panicked := by
      cases (p.process.on x).epollWait o.wait <;> exact ⟨rfl, rfl⟩
    -- The tasks are as before when the task is enqueued.
    let p₁ : Piped V := { p with
      process := p.process.setMemory ((p.process.on x).epollWait o.wait).memory }
    have htasks : p₁.process.memory.tasks = p.process.memory.tasks := heff.steady.tasks
    have henqueue := performAll_enqueue p₁ o x t
    rw [htasks] at henqueue
    have hperform : p.perform o (.wait x) =
        (p₁, ((p.process.on x).epollWait o.wait).panicked.isNone) := by
      simp [perform, refuses, Process.perform, hmem, p₁]
    simp only [hb, if_true, List.singleton_append, performAll, hperform]
    cases hpanic : ((p.process.on x).epollWait o.wait).panicked with
    | none => exact ⟨iff_of_true henqueue.1 fun _ => rfl, fun _ => henqueue.2⟩
    | some e => simp
  · have henqueue := performAll_enqueue p o x t
    simp only [hb, Bool.false_eq_true, if_false, List.nil_append, false_implies]
    exact ⟨iff_of_true henqueue.1 trivial, fun _ => henqueue.2⟩

/-- A thread whose executor is `x` wakes a task: this does not panic exactly if the waker gets through, and
then the wake reaches the executor of the task if this is alive. -/
lemma performAll_taskWake (hwf : p.process.Wf) {i : ThreadId} {x : ExecId}
    (hx : p.process.current i = some x) {o : WakeAnswers}
    (hk : (p.process.on x).answers o.wait) {t : TaskId} (ht : t < p.process.memory.nTasks) :
    let r := p.performAll o (p.process.taskWake x t)
    (r.2 = true ↔ p.Passes o x (.task t)) ∧
      (r.2 = true → ¬ p.process.replaced (p.process.memory.tasks t).exec →
        r.1.Delivered i (p.process.memory.tasks t).exec (.task t)) := by
  obtain ⟨hlt, hopen, -⟩ := hwf.current i x hx
  obtain ⟨hty, hpipe⟩ := hwf.tasks t ht
  have hrunning : ¬ p.process.replaced (p.process.memory.tasks t).exec →
      (p.process.memory.execs (p.process.memory.tasks t).exec).isOpen = true := fun hr =>
    (hwf.current _ _ (not_not.mp hr)).2.1
  simp only [Process.taskWake, Passes]
  by_cases hsame : (p.process.memory.tasks t).pipeWr = (p.process.memory.execs x).pipeWr
  · obtain ⟨hok, hdone⟩ := performAll_direct p o x t
    rw [Thread.epollWait_panicked_iff hk] at hok
    rw [if_pos hsame, if_pos hsame]
    refine ⟨hok, fun hr hy => ?_⟩
    -- The executor of the task is that of the thread.
    have heq := hwf.eq_of_pipeWr_eq hlt hopen hty (hrunning hy) (hpipe.symm.trans hsame)
    rw [heq]
    rcases hdone hr with hcompleted | hhome
    · exact .inl hcompleted
    · exact .inr (.inl hhome)
  · rw [if_neg hsame, if_neg hsame]
    refine ⟨performAll_writeTo o _ _, fun hr hy => .inr (.inr ?_)⟩
    refine mem_pipe_of_writeTo ?_ hr
    rw [hpipe]
    exact hwf.files_pipeWr hty (hrunning hy)

/-- A thread whose executor is `x` wakes a `block_on`: this does not panic exactly if the waker gets
through, and then the wake reaches the executor of the `block_on` if this is alive. -/
lemma performAll_blockOnWake (hwf : p.process.Wf) {i : ThreadId} {x : ExecId}
    (hx : p.process.current i = some x) {o : WakeAnswers} {b : BlockOnId}
    (hb : b < p.process.memory.nBlockOns) :
    let pipeWr := p.process.memory.blockOnPipe b
    let r := p.performAll o (p.process.blockOnWake x pipeWr)
    (r.2 = true ↔ p.Passes o x (.blockOn pipeWr b)) ∧
      (r.2 = true → ¬ p.process.replaced (p.process.blockOnExec b) →
        r.1.Delivered i (p.process.blockOnExec b) (.blockOn pipeWr b)) := by
  obtain ⟨hlt, hopen, -⟩ := hwf.current i x hx
  obtain ⟨hby, hpipe⟩ := hwf.blockOns b hb
  have hrunning : ¬ p.process.replaced (p.process.blockOnExec b) →
      (p.process.memory.execs (p.process.blockOnExec b)).isOpen = true := fun hr =>
    (hwf.current _ _ (not_not.mp hr)).2.1
  simp only [Process.blockOnWake, Passes]
  by_cases hsame : p.process.memory.blockOnPipe b = (p.process.memory.execs x).pipeWr
  · rw [if_pos hsame]
    refine ⟨iff_of_true rfl (.inl hsame), fun _ hy => .inl ?_⟩
    rw [hwf.eq_of_pipeWr_eq hlt hopen hby (hrunning hy) (hpipe.symm.trans hsame)]
    exact hx
  · rw [if_neg hsame]
    refine ⟨(performAll_writeTo o _ _).trans (or_iff_right hsame).symm, fun hr hy => .inr ?_⟩
    refine mem_pipe_of_writeTo ?_ hr
    rw [hpipe]
    exact hwf.files_pipeWr hby (hrunning hy)

/-- What the kernel answers to `epoll_wait` on the executor that a thread finds. -/
lemma answers_of_grants {i : ThreadId} {o : WakeAnswers} (ho : p.grants i o = true) {x : ExecId}
    (henter : p.enter i o.init = some (q, x)) : (q.process.on x).answers o.wait := by
  simp only [grants, henter, Option.all_some, Bool.and_eq_true, decide_eq_true_eq] at ho
  exact ho.2

/-- `exec` in a wake does not panic exactly if the wake gets through, and then the wake reaches the executor
it is for if this is alive. -/
lemma invoke_iff (hwf : p.process.Wf) {i : ThreadId} {w : Waker} (hw : p.process.memory.knows w = true)
    {o : WakeAnswers} (ho : p.grants i o = true) :
    ((p.invoke i o w).2 = true ↔ p.Admits i o w) ∧
      ((p.invoke i o w).2 = true → ∀ y, p.process.creator w = some y → ¬ p.process.replaced y →
        (p.invoke i o w).1.Delivered i y w) := by
  cases w with
  | task t =>
    cases henter : p.enter i o.init with
    | none => simp [invoke, Admits, henter]
    | some r =>
      obtain ⟨q, x⟩ := r
      have he := entered hwf ho henter
      have ht : t < q.process.memory.nTasks := by
        rw [he.nTasks]
        simpa [Thread.knows] using hw
      have hinvoke : p.invoke i o (.task t) = q.performAll o (q.process.taskWake x t) := by
        simp [invoke, henter]
      have hadmits : p.Admits i o (.task t) ↔ q.Passes o x (.task t) := by simp [Admits, henter]
      obtain ⟨hok, hdelivered⟩ :=
        performAll_taskWake he.wf he.current (answers_of_grants ho henter) ht
      rw [hinvoke, hadmits]
      refine ⟨hok, fun hr y hy hrunning => ?_⟩
      obtain rfl : (q.process.memory.tasks t).exec = y := by
        rw [he.tasks]
        simpa [Process.creator] using hy
      exact hdelivered hr (he.running _ hrunning)
  | blockOn pipeWr b =>
    cases henter : p.enter i o.init with
    | none => simp [invoke, Admits, henter]
    | some r =>
      obtain ⟨q, x⟩ := r
      have he := entered hwf ho henter
      obtain ⟨hb, rfl⟩ : b < q.process.memory.nBlockOns ∧ q.process.memory.blockOnPipe b = pipeWr := by
        rw [he.nBlockOns, he.blockOnPipe]
        simpa [Thread.knows] using hw
      have hinvoke : p.invoke i o (.blockOn (q.process.memory.blockOnPipe b) b) =
          q.performAll o (q.process.blockOnWake x (q.process.memory.blockOnPipe b)) := by
        simp [invoke, henter]
      have hadmits : p.Admits i o (.blockOn (q.process.memory.blockOnPipe b) b) ↔
          q.Passes o x (.blockOn (q.process.memory.blockOnPipe b) b) := by simp [Admits, henter]
      obtain ⟨hok, hdelivered⟩ := performAll_blockOnWake he.wf he.current (o := o) hb
      rw [hinvoke, hadmits]
      refine ⟨hok, fun hr y hy hrunning => ?_⟩
      obtain rfl : q.process.blockOnExec b = y := by
        rw [he.blockOnExec]
        simpa [Process.creator] using hy
      exact hdelivered hr (he.running _ hrunning)
  | noop | other j => exact ⟨iff_of_true rfl trivial, fun _ y hy => by simp [Process.creator] at hy⟩

/-- Going on after `exec` has woken a task leaves the process and the panics alone. -/
lemma advance_process (p : Piped V) (i : ThreadId) :
    (p.advance i).process = p.process ∧ (p.advance i).panics = p.panics := by
  unfold advance
  split <;> exact ⟨rfl, rfl⟩

/-- A wake that fails is a panic. -/
lemma fail_panics (p : Piped V) (i : ThreadId) (w : Waker) : (p.fail i w).panics = (i, w) :: p.panics := by
  unfold fail
  split <;> rfl

/-- A step that uses an executor panics exactly in a destructor that is called inside `exec`; in the
destructor of a future that a wake drops, this is a panic of the wake. -/
lemma use_panics {i : ThreadId} {a : ProcessAction V} (hs : p.use i a = some p') :
    p'.panics = p.panics ↔ ∀ t w rest, p.calls i ≠ .dropping t (some w) :: rest := by
  unfold use at hs
  split at hs
  · rename_i hnil
    obtain ⟨P, -, rfl⟩ := Option.map_eq_some_iff.mp hs
    simp [hnil]
  · rename_i t w rest hcalls
    obtain ⟨P, -, rfl⟩ := Option.map_eq_some_iff.mp hs
    cases w <;> simp [hcalls]
  · simp at hs

/-- A step that is no call of `exec` by a wake keeps all wakes if none panics. -/
lemma kept_of_panics {a : PipedAction V} (hne : ∀ i w o, a ≠ .wake i w o)
    (hp : p'.panics = p.panics) : p.Kept a p' :=
  ⟨hp, fun i w o ha => absurd ha (hne i w o)⟩

/-- A step that is no wake keeps all wakes exactly if it is not taken by the destructor of a future that a
wake drops inside `exec`. -/
lemma kept_process_iff {b : ProcessAction V} (hs : p.step (.process b) = some p') :
    p.Kept (.process b) p' ↔ p.Accepts (.process b) := by
  have hkept : p.Kept (.process b) p' ↔ p'.panics = p.panics :=
    ⟨And.left, kept_of_panics (by simp)⟩
  rw [hkept]
  have huse : ∀ i, b.user = some i → p.use i b = some p' →
      (p'.panics = p.panics ↔ p.Accepts (.process b)) := by
    intro i hi hu
    rw [use_panics hu]
    refine ⟨fun hnot j hj => ?_, fun hall => hall i hi⟩
    obtain rfl : i = j := by simpa [hi] using hj
    exact hnot
  have hnone : b.user = none → p'.panics = p.panics →
      (p'.panics = p.panics ↔ p.Accepts (.process b)) := fun hb hp =>
    iff_of_true hp fun i hi => by simp [hb] at hi
  have hmap : ∀ (c : ProcessAction V), (p.process.step c).map
      (fun P => ({ p with process := P } : Piped V)) = some p' → p'.panics = p.panics := by
    intro c hc
    obtain ⟨P, -, rfl⟩ := Option.map_eq_some_iff.mp hc
    rfl
  cases b with
  | wake i w k | upgrade t | release t => simp [step] at hs
  | exit i =>
    simp only [step] at hs
    split_ifs at hs
    obtain ⟨P, -, rfl⟩ := Option.map_eq_some_iff.mp hs
    exact hnone rfl rfl
  | pending i t | close x =>
    simp only [step] at hs
    split_ifs at hs
    exact hnone rfl (hmap _ hs)
  | start i pipeWr =>
    simp only [step] at hs
    split_ifs at hs
    exact huse i rfl hs
  | replace i pipeWr | spawn i priority | blockOn i | wait i k | poll i | abort i t
  | fdNew i raw events fcntl ctl | fdDrop i f => exact huse i rfl hs
  | discard x t | openFile fd j | closeFile fd | complete t => exact hnone rfl (hmap _ hs)
  | dropHandle t => exact hnone rfl (hmap (.dropHandle t) hs)
  | pollWith f ew b => exact hnone rfl (hmap (.pollWith f ew b) hs)

/-- A wake that calls `exec` is kept exactly if it gets through. -/
lemma kept_wake_iff (hwf : p.process.Wf) {i : ThreadId} {w : Waker} {o : WakeAnswers}
    (hs : p.step (.wake i w o) = some p') : p.Kept (.wake i w o) p' ↔ p.Admits i o w := by
  simp only [step] at hs
  split_ifs at hs with hcond
  obtain ⟨hw, -, ho⟩ := hcond
  obtain rfl := Option.some.inj hs
  obtain ⟨hok, hdelivered⟩ := invoke_iff hwf hw ho
  have hpanics := (invoke_calls p i o w).2
  rw [← hok]
  cases hr : (p.invoke i o w).2 with
  | true =>
    simp only [wake, hr, if_true]
    obtain ⟨hprocess, hpanics'⟩ := advance_process (p.invoke i o w).1 i
    refine iff_of_true ⟨hpanics'.trans hpanics, fun j w' o' heq y hy hrunning => ?_⟩ trivial
    obtain ⟨rfl, rfl, rfl⟩ := PipedAction.wake.inj heq
    have hd := hdelivered hr y hy hrunning
    cases w with
    | task t | blockOn pipeWr b => simpa only [Delivered, hprocess] using hd
    | noop | other j => trivial
  | false =>
    refine iff_of_false (fun hkept => ?_) (by simp)
    have hp := hkept.1
    simp [wake, hr, fail_panics, hpanics] at hp

/-- A step keeps all wakes exactly if it agrees with them. -/
lemma kept_iff (hwf : p.process.Wf) {a : PipedAction V} (hs : p.step a = some p') :
    p.Kept a p' ↔ p.Accepts a := by
  cases a with
  | process b => exact kept_process_iff hs
  | wake i w o => exact kept_wake_iff hwf hs
  | closeRead x | receive i t =>
    simp only [step] at hs
    split_ifs at hs
    exact iff_of_true (kept_of_panics (by simp) (Option.some.inj hs ▸ rfl)) trivial
  | upgrade i t =>
    simp only [step] at hs
    split at hs
    · obtain ⟨P, -, rfl⟩ := Option.map_eq_some_iff.mp hs
      exact iff_of_true (kept_of_panics (by simp) rfl) trivial
    · simp at hs
  | letGo i =>
    simp only [step] at hs
    split at hs
    · exact iff_of_true (kept_of_panics (by simp) (Option.some.inj hs ▸ rfl)) trivial
    · exact iff_of_true (kept_of_panics (by simp) (Option.some.inj hs ▸ rfl)) trivial
    · simp at hs
  | dropped i =>
    simp only [step] at hs
    split at hs
    · exact iff_of_true (kept_of_panics (by simp) (Option.some.inj hs ▸ rfl)) trivial
    · simp at hs

/-- A reachable state with a property. -/
lemma exists_reachable (pipeCapacity : ℕ) (hpos : 0 < pipeCapacity) (actions : List (PipedAction V))
    (P : Piped V → Bool)
    (hP : (exec step (fun _ _ => true) (start V pipeCapacity) actions).any P = true) :
    ∃ p : Piped V, Reachable step IsStart p ∧ P p = true :=
  ReachableUnder.exists_free_run _ ⟨pipeCapacity, hpos, rfl⟩ actions hP

/-- A pointer is written to the pipe of an executor. -/
def append (p : Piped V) (y : ExecId) (ptr : Option TaskId) : Piped V :=
  { p with
    process := p.process.setMemory (p.process.memory.setExec y
      { p.process.memory.execs y with pipe := (p.process.memory.execs y).pipe ++ [ptr] }) }

/-- The thread `i` wakes the task `t` by writing to the pipe of the executor `y`. -/
structure Writes (p : Piped V) (i : ThreadId) (t : TaskId) (y : ExecId) : Prop where
  free : p.borrowed i = false
  current : ∃ x, p.process.current i = some x ∧
    (p.process.memory.tasks t).pipeWr ≠ (p.process.memory.execs x).pipeWr
  known : t < p.process.memory.nTasks
  file : p.process.files (p.process.memory.tasks t).pipeWr = some (.pipe y)
  readable : p.readClosed y = false

/-- An answer to a wake that asks for nothing. -/
def noAnswer : WakeAnswers := ⟨none, .error .other, true⟩

/-- What is in the pipe does not matter. -/
lemma Writes.append {i : ThreadId} {t : TaskId} {y : ExecId} (h : p.Writes i t y)
    (ptr : Option TaskId) : (p.append y ptr).Writes i t y := by
  obtain ⟨x, hx, hne⟩ := h.current
  refine ⟨h.free, ⟨x, hx, ?_⟩, h.known, h.file, h.readable⟩
  by_cases hxy : x = y
  · subst hxy
    simpa [Piped.append, Process.setMemory, Thread.setExec] using hne
  · simpa [Piped.append, Process.setMemory, Thread.setExec, hxy] using hne

/-- The kernel may give no answer to a wake of the thread. -/
lemma Writes.grants {i : ThreadId} {t : TaskId} {y : ExecId} (h : p.Writes i t y) :
    p.grants i noAnswer = true := by
  obtain ⟨x, hx, -⟩ := h.current
  simp only [Piped.grants, noAnswer, enter, h.free, hx, Option.all_none, Option.all_some,
    Bool.true_and, Bool.false_eq_true, if_false]
  trivial

/-- The wake appends the pointer if there is room, and panics otherwise; so does that of a `block_on` on the
same executor. -/
lemma Writes.invoke {i : ThreadId} {t : TaskId} {y : ExecId} (h : p.Writes i t y) (o : WakeAnswers) :
    (p.process.memory.pipeCapacity ≤ (p.process.memory.execs y).pipe.length →
      (p.invoke i o (.task t)).2 = false ∧
        ∀ b, (p.invoke i o (.blockOn (p.process.memory.tasks t).pipeWr b)).2 = false) ∧
    ((p.process.memory.execs y).pipe.length < p.process.memory.pipeCapacity →
      p.invoke i o (.task t) = (p.append y (some t), true)) := by
  obtain ⟨x, hx, hne⟩ := h.current
  have henter : p.enter i o.init = some (p, x) := by simp [enter, h.free, hx]
  constructor
  · intro hfull
    simp [Piped.invoke, henter, Process.taskWake, Process.blockOnWake, hne, Process.writeTo,
      h.file, performAll, perform, refuses, h.readable, Process.perform, hfull.not_gt]
  · intro hroom
    simp [Piped.invoke, henter, Process.taskWake, hne, Process.writeTo, h.file, performAll,
      perform, refuses, h.readable, Process.perform, hroom, Piped.append]

/-- The thread has upgraded its weak reference to a task. -/
def upgraded (p : Piped V) (i : ThreadId) (t : TaskId) : Piped V :=
  { p with
    process := p.process.setMemory
      { p.process.memory with waking := t :: p.process.memory.waking } }.setCalls i [.upgraded t]

/-- Upgrading its weak reference does not keep the thread from waking the task. -/
lemma Writes.upgraded {i : ThreadId} {t : TaskId} {y : ExecId} (h : p.Writes i t y) :
    (p.upgraded i t).Writes i t y :=
  ⟨by simp [Piped.upgraded, setCalls, borrowed, WakeCall.borrows], h.current, h.known, h.file, h.readable⟩

/-- The first step of a wake by a thread that does nothing else. -/
lemma Writes.step_upgrade {i : ThreadId} {t : TaskId} {y : ExecId} (h : p.Writes i t y)
    (hidle : p.calls i = []) (halive : p.process.memory.alive t = true) :
    p.step (.upgrade i t) = some (p.upgraded i t) := by
  simp [step, Thread.knows, h.known, Piped.free, hidle, Process.step, halive, Piped.upgraded]

/-- The second step of a wake. -/
lemma Writes.step_wake {i : ThreadId} {t : TaskId} {y : ExecId} (h : p.Writes i t y) :
    (p.upgraded i t).step (.wake i (.task t) noAnswer) =
      some ((p.upgraded i t).wake i (.task t) noAnswer) := by
  have hknows : (p.upgraded i t).process.memory.knows (.task t) = true := by
    rw [Thread.knows, decide_eq_true_eq]
    exact h.known
  have hready : (p.upgraded i t).ready i (.task t) = true := by
    simp [ready, Piped.upgraded, setCalls]
  simp only [step, hknows, hready, h.upgraded.grants, and_self, if_true]

/-- Giving up an upgraded reference undoes the upgrade. -/
lemma release_upgraded {i : ThreadId} (hidle : p.calls i = []) (t : TaskId) :
    (((p.upgraded i t).setCalls i [.woken t]).release t).setCalls i [] = p := by
  have hcalls : Function.update p.calls i [] = p.calls := by
    rw [← hidle, Function.update_eq_self]
  simp [release, setCalls, upgraded, Process.setMemory, hcalls]

/-- The last step of a wake by a thread that did nothing else, if the task lives on. -/
lemma step_letGo {i : ThreadId} {t : TaskId} (hidle : p.calls i = [])
    (halive : p.process.memory.alive t = true) :
    ((p.upgraded i t).setCalls i [.woken t]).step (.letGo i) = some p := by
  have hrelease := release_upgraded hidle t
  have halive' : (((p.upgraded i t).setCalls i [.woken t]).release t).process.memory.alive t = true :=
    (congrArg (fun q : Piped V => q.process.memory.alive t) hrelease).trans halive
  have hcalls : ((p.upgraded i t).setCalls i [.woken t]).calls i = [.woken t] := by simp [setCalls]
  simp only [step, hcalls, letGo, halive', if_true, hrelease]

/-- A whole wake appends the pointer if there is room. -/
lemma Writes.exec {i : ThreadId} {t : TaskId} {y : ExecId} (h : p.Writes i t y)
    (hidle : p.calls i = []) (halive : p.process.memory.alive t = true)
    (hroom : (p.process.memory.execs y).pipe.length < p.process.memory.pipeCapacity) :
    Epox.exec step (fun _ _ => true) p [.upgrade i t, .wake i (.task t) noAnswer, .letGo i] =
      some (p.append y (some t)) := by
  have hwake : (p.upgraded i t).wake i (.task t) noAnswer =
      ((p.append y (some t)).upgraded i t).setCalls i [.woken t] := by
    simp only [wake, (h.upgraded.invoke noAnswer).2 hroom, if_true]
    simp [advance, Piped.append, Piped.upgraded, setCalls, Process.setMemory, Thread.setExec]
  have hletGo := step_letGo (p := p.append y (some t)) hidle halive
  simp only [Epox.exec, if_true, h.step_upgrade hidle halive, Option.bind_some, h.step_wake, hwake,
    hletGo]

/-- While nothing is read from it, wakes fill a pipe. -/
lemma Writes.exists_full {i : ThreadId} {t : TaskId} {y : ExecId} (n : ℕ) (h : p.Writes i t y)
    (hidle : p.calls i = []) (halive : p.process.memory.alive t = true)
    (hr : Reachable step IsStart p)
    (hn : (p.process.memory.execs y).pipe.length + n = p.process.memory.pipeCapacity) :
    ∃ p', Reachable step IsStart p' ∧ p'.Writes i t y ∧ p'.calls = p.calls ∧ p'.panics = p.panics ∧
      p'.process.memory.pipeCapacity ≤ (p'.process.memory.execs y).pipe.length ∧
      p'.process.memory = { p.process.memory with execs := p'.process.memory.execs } ∧
      ∀ z, p'.process.replaced z ↔ p.process.replaced z := by
  induction n generalizing p with
  | zero => exact ⟨p, hr, h, rfl, rfl, hn.ge, rfl, fun _ => Iff.rfl⟩
  | succ n ih =>
    have hexec := h.exec hidle halive (by omega)
    have hlen : ((p.append y (some t)).process.memory.execs y).pipe.length =
        (p.process.memory.execs y).pipe.length + 1 := by
      simp [Piped.append, Process.setMemory, Thread.setExec]
    have hcapacity : (p.append y (some t)).process.memory.pipeCapacity =
        p.process.memory.pipeCapacity := rfl
    have hrest := ih (h.append (some t)) hidle halive (hr.of_exec (fun _ _ _ => trivial) hexec) (by
      rw [hlen, hcapacity]
      omega)
    exact hrest

/-- When the pipe is full, a wake of the task panics, and so does that of a `block_on` on the same
executor. -/
lemma Writes.panics_of_full {i : ThreadId} {t : TaskId} {y : ExecId} {b : BlockOnId} (h : p.Writes i t y)
    (hidle : p.calls i = []) (halive : p.process.memory.alive t = true)
    (hfull : p.process.memory.pipeCapacity ≤ (p.process.memory.execs y).pipe.length)
    (hb : p.process.memory.knows (.blockOn (p.process.memory.tasks t).pipeWr b) = true) :
    ∃ p₁ p₂, Epox.exec step (fun _ _ => true) p [.upgrade i t, .wake i (.task t) noAnswer] = some p₁ ∧
      p₁.panics = (i, .task t) :: p.panics ∧
      p.step (.wake i (.blockOn (p.process.memory.tasks t).pipeWr b) noAnswer) = some p₂ ∧
      p₂.panics = (i, .blockOn (p.process.memory.tasks t).pipeWr b) :: p.panics := by
  have htask := ((h.upgraded).invoke noAnswer).1 hfull
  have hblockOn := ((h.invoke noAnswer).1 hfull).2 b
  have hready : p.ready i (.blockOn (p.process.memory.tasks t).pipeWr b) = true := by
    simp [ready, Piped.free, hidle]
  refine ⟨(p.upgraded i t).wake i (.task t) noAnswer,
    p.wake i (.blockOn (p.process.memory.tasks t).pipeWr b) noAnswer, ?_, ?_, ?_, ?_⟩
  · simp only [Epox.exec, if_true, h.step_upgrade hidle halive, Option.bind_some, h.step_wake]
  · have hpanics := (invoke_calls (p.upgraded i t) i noAnswer (.task t)).2
    simp only [wake, htask.1, Bool.false_eq_true, if_false, fail_panics, hpanics]
    rfl
  · simp only [step, hb, hready, h.grants, and_self, if_true]
  · have hpanics := (invoke_calls p i noAnswer (.blockOn (p.process.memory.tasks t).pipeWr b)).2
    simp only [wake, hblockOn, Bool.false_eq_true, if_false, fail_panics, hpanics]

end Piped

end Epox

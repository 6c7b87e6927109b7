import Epox.Executor.Thread
import Epox.Foundation.Transition

/-!
# The steps of a thread

`Thread.step s a` is one step of the thread `s` (none if the action `a` is not possible).  There are
three kinds of actions:

* `go` lets the library code on top of the call stack proceed to its next step: `run`, `run_task` or
  `block_on`; `replace` is the step of `run` in which the kernel chooses a descriptor.
* While the top of the stack is code of the caller (the thread's own code, the poll of a future, the
  closure of an `Fd`, a foreign waker or a destructor), this code may call any function of the crate,
  any number of times and in any order, and leave (`pending`, `ready`, `closure`, `finish`).
* Other threads wake tasks and `block_on` calls of this thread at any time.

A thread that has panicked makes no further step.
-/

namespace Epox

/-- What the environment of a thread decides about its next step. -/
inductive Action (V : Type)
  /-- The library code on top of the stack proceeds; `k` answers the `epoll_wait` it calls, if any. -/
  | go (k : KernelAnswer)
  /-- `run` replaces the executor; `none` if `Executor::new` fails. -/
  | replace (pipeWr : Option RawFd)
  | spawn (priority : Priority)
  /-- `Waker::wake_by_ref`. -/
  | wake (w : Waker) (k : KernelAnswer)
  | abort (t : TaskId)
  | handleResult (t : TaskId)
  | handlePoll (t : TaskId) (w : Waker)
  | dropHandle (t : TaskId)
  /-- `shutdown_executor_unchecked`. -/
  | shutdown
  | run
  | blockOn
  /-- The poll in progress returns `Poll::Pending`. -/
  | pending
  /-- The poll in progress returns `Poll::Ready`. -/
  | ready (v : V)
  /-- A foreign waker or a destructor returns. -/
  | finish
  | fdNew (raw : RawFd) (events : EpollFlags) (fcntl ctl : Bool)
  | fdDrop (f : FdId)
  | pollWith (f : FdId) (cx : Waker) (k : KernelAnswer)
  /-- The closure of the `poll_with` in progress returns. -/
  | closure (r : IoResult)
  /-- Another thread begins to wake a task and upgrades its reference. -/
  | foreignUpgrade (t : TaskId)
  /-- That thread writes the task's address to the pipe and its wake returns. -/
  | foreignWrite (t : TaskId)
  /-- Another thread invokes the waker of a `block_on`. -/
  | foreignBlockOn (b : BlockOnId)

/-- Another thread acts. -/
def Action.isForeign {V : Type} : Action V → Bool
  | .foreignUpgrade _ | .foreignWrite _ | .foreignBlockOn _ => true
  | _ => false

namespace Thread

variable {V : Type}

/-! ## Library code -/

/-- `run_task`, up to the poll of the future. -/
def runTask (s : Thread V) (t : TaskId) : Thread V :=
  if (s.tasks t).borrowed then
    s.panic (.taskBorrowed t)
  else
    ((s.setTask t { s.tasks t with borrowed := true }).setStack
      (.runTask t .polling :: s.stack)).emit (.polled t)

/-- The next task of a queue of a replaced executor. -/
def popReplaced (s : Thread V) (x : ExecId) : Option (TaskId × Thread V) :=
  let popped := (s.queues.pop (x, .runqHigh)).or ((s.queues.pop (x, .runqNormal)).or
    ((s.queues.pop (x, .runqLow)).or (s.queues.pop (x, .sleepq))))
  popped.map fun r => (r.1, { s with queues := r.2, log := .discarded r.1 :: s.log })

/-- `run`: one step of a call at `pc`, with the rest of the stack. -/
def goRun (s : Thread V) (k : KernelAnswer) (rest : List Frame) : RunPc → Option (Thread V)
  | .select =>
    match s.highestPriorityRunnableTask with
    | some (t, s') => some ((s'.setStack (.run .afterTask :: rest)).runTask t)
    | none => some (s.setStack (.run .checkSleepq :: rest))
  | .afterTask =>
    if s.executor.shutdown then
      some (s.setStack (.run .replace :: rest))
    else
      some (s.setStack (.run .waitZero :: rest))
  | .checkSleepq =>
    if (s.queues.list (s.cur, .sleepq)).isEmpty then
      some (s.setStack (.run .replace :: rest))
    else
      some (s.setStack (.run .waitNone :: rest))
  | .waitZero | .waitNone =>
    match s.epollWait k with
    | .ok s' => some (s'.setStack (.run .select :: rest))
    | .err s' => some (s'.setStack rest)
    | .panic p s' => some (s'.panic p)
  | .replace => none
  | .teardown x =>
    match s.popReplaced x with
    | some (t, s') => some (if s'.alive t then s' else s'.setStack (.run (.dropping x) :: rest))
    | none =>
      some (((s.setExec x { s.execs x with isOpen := false }).setStack rest).emit
        (.ran x (s.execs x).shutdown))
  | .dropping _ => none

/-- `run`: `EXECUTOR.replace(Executor::new()?)`.  The descriptor of the new pipe is not that of a pipe
that is still open. -/
def replaceExecutor (s : Thread V) (pipeWr : Option RawFd) (rest : List Frame) :
    Option (Thread V) :=
  match pipeWr with
  | none => some (s.setStack rest)
  | some fd =>
    if (s.pipeOf fd).isNone then
      some (({ s with cur := s.cur + 1 }.setExec (s.cur + 1) (Executor.new fd)).setStack
        (.run (.teardown s.cur) :: rest))
    else
      none

/-- `run_task`: one step of a call at `pc`, with the rest of the stack. -/
def goRunTask (s : Thread V) (k : KernelAnswer) (t : TaskId) (rest : List Frame) :
    TaskPc → Option (Thread V)
  | .settle => some ((if s.isQueued t then s else s.sleep t).setStack rest)
  | .wakeHandle w =>
    match s.wake k w with
    | .ok s' | .err s' =>
      match w with
      | .other _ => some (s'.setStack (.runTask t .inHandleWake :: rest))
      | _ => some (s'.setStack (.runTask t .complete :: rest))
    | .panic p s' => some (s'.panic p)
  | .complete =>
    let s' := ((s.setTask t { s.tasks t with hasCompleted := true, borrowed := false }).setStack
      rest).emit (.completed t)
    some (if s'.alive t then s' else s'.setStack (.runTask t .drop :: rest))
  | .polling | .inHandleWake | .drop => none

/-- `block_on`: one step of a call at `pc`, with the rest of the stack. -/
def goBlockOn (s : Thread V) (k : KernelAnswer) (b : BlockOnId) (rest : List Frame) :
    BlockOnPc → Option (Thread V)
  | .select =>
    match s.highestPriorityRunnableTask with
    | some (t, s') => some ((s'.setStack (.blockOn b .waitZero :: rest)).runTask t)
    | none => some (s.setStack (.blockOn b .waitNone :: rest))
  | .waitZero | .waitNone =>
    match s.epollWait k with
    | .ok s' => some ((s'.setStack (.blockOn b .polling :: rest)).emit (.blockOnPolled b))
    | .err s' => some (s'.panic .blockOnWait)
    | .panic p s' => some (s'.panic p)
  | .polling => none

/-- The library code on top of the stack proceeds. -/
def go (s : Thread V) (k : KernelAnswer) : Option (Thread V) :=
  match s.stack with
  | .run pc :: rest => s.goRun k rest pc
  | .runTask t pc :: rest => s.goRunTask k t rest pc
  | .blockOn b pc :: rest => s.goBlockOn k b rest pc
  | _ => none

/-! ## Code of the caller -/

/-- The top of the stack is code of the caller. -/
def inUserCode (s : Thread V) : Bool :=
  match s.stack with
  | .user :: _ => true
  | .run (.dropping _) :: _ => true
  | .runTask _ .polling :: _ => true
  | .runTask _ .inHandleWake :: _ => true
  | .runTask _ .drop :: _ => true
  | .blockOn _ .polling :: _ => true
  | .pollWith _ _ :: _ => true
  | _ => false

/-- The code of the caller calls a function of the crate. -/
def call (s s' : Thread V) : Option (Thread V) :=
  if s.inUserCode then some s' else none

/-- A waker that some code may hold: one of a task that was spawned, or of a call of `block_on`. -/
def knows (s : Thread V) : Waker → Bool
  | .task t => t < s.nTasks
  | .blockOn pipeWr b => b < s.nBlockOns && s.blockOnPipe b == pipeWr
  | .noop => true
  | .other _ => true

/-- `block_on`, up to the first poll of the future. -/
def enterBlockOn (s : Thread V) : Thread V :=
  let b := s.nBlockOns
  emit { s with
    blockOnPipe := Function.update s.blockOnPipe b s.executor.pipeWr
    nBlockOns := b + 1
    stack := .blockOn b .polling :: s.stack } (.blockOnPolled b)

/-- The poll on top of the stack returns `Poll::Pending`. -/
def pending (s : Thread V) : Option (Thread V) :=
  match s.stack with
  | .runTask t .polling :: rest =>
    some ((s.setTask t { s.tasks t with borrowed := false }).setStack (.runTask t .settle :: rest))
  | .blockOn b .polling :: rest => some (s.setStack (.blockOn b .select :: rest))
  | _ => none

/-- The poll on top of the stack returns `Poll::Ready(v)`: `Inner::poll` stores the output and
`run_task` takes the waker of the handle; `block_on` returns. -/
def ready (s : Thread V) (v : V) : Option (Thread V) :=
  match s.stack with
  | .runTask t .polling :: rest =>
    some (((s.setTask t { s.tasks t with output := some v, handleWaker := .noop }).setStack
      (.runTask t (.wakeHandle (s.tasks t).handleWaker) :: rest)).emit (.ready t))
  | .blockOn _ .polling :: rest => some (s.setStack rest)
  | _ => none

/-- A foreign waker or a destructor on top of the stack returns. -/
def finish (s : Thread V) : Option (Thread V) :=
  match s.stack with
  | .runTask t .inHandleWake :: rest => some (s.setStack (.runTask t .complete :: rest))
  | .runTask _ .drop :: rest => some (s.setStack rest)
  | .run (.dropping x) :: rest => some (s.setStack (.run (.teardown x) :: rest))
  | _ => none

/-- The closure on top of the stack returns, and with it `Fd::poll_with` unless the result is
`Interrupted`. -/
def closure (s : Thread V) (r : IoResult) : Option (Thread V) :=
  match s.stack with
  | .pollWith f cx :: rest =>
    match (s.fds f).ew.pollWithReturn cx r with
    | none => some s
    | some ew => some ((s.setFd f { s.fds f with ew := ew, borrowed := false }).setStack rest)
  | _ => none

/-! ## Other threads -/

/-- Another thread writes the address of a task it is waking to the task's pipe.  If the pipe is full
that thread panics. -/
def foreignWrite (s : Thread V) (t : TaskId) : Thread V :=
  let s' := { s with waking := s.waking.erase t }
  match s'.write (s.tasks t).pipeWr (some t) with
  | some s'' => s''.emit (.woken t)
  | none => s'

/-- Another thread invokes the waker of a `block_on`. -/
def foreignBlockOn (s : Thread V) (b : BlockOnId) : Thread V :=
  match s.write (s.blockOnPipe b) none with
  | some s' => s'.emit (.blockOnWoken b)
  | none => s.emit (.blockOnWoken b)

/-! ## Steps -/

/-- One step of a thread that has not panicked. -/
def act (s : Thread V) : Action V → Option (Thread V)
  | .go k => if s.answers k then s.go k else none
  | .replace pipeWr =>
    match s.stack with
    | .run .replace :: rest => s.replaceExecutor pipeWr rest
    | _ => none
  | .spawn priority => s.call (s.spawn priority)
  | .wake w k => if s.knows w ∧ s.answers k then s.call (s.wake k w).thread else none
  | .abort t => if (s.tasks t).handle then s.call (s.abort t) else none
  | .handleResult t => if (s.tasks t).handle then s.call (s.handleResult t) else none
  | .handlePoll t w =>
    if (s.tasks t).handle ∧ s.knows w then s.call (s.handlePoll t w) else none
  | .dropHandle t =>
    if (s.tasks t).handle then s.call (s.setTask t { s.tasks t with handle := false }) else none
  | .shutdown => s.call (s.setExec s.cur { s.executor with shutdown := true })
  | .run => s.call (s.setStack (.run .select :: s.stack))
  | .blockOn => s.call s.enterBlockOn
  | .pending => s.pending
  | .ready v => s.ready v
  | .finish => s.finish
  | .fdNew raw events fcntl ctl => s.call (s.fdNew raw events fcntl ctl)
  | .fdDrop f => if (s.fds f).live ∧ ¬ (s.fds f).borrowed then s.call (s.fdDrop f) else none
  | .pollWith f cx k =>
    if (s.fds f).live ∧ s.knows cx ∧ s.answers k then s.call (s.pollWith k f cx).thread else none
  | .closure r => s.closure r
  | .foreignUpgrade t =>
    if t < s.nTasks ∧ s.alive t then some { s with waking := t :: s.waking } else none
  | .foreignWrite t => if t ∈ s.waking then some (s.foreignWrite t) else none
  | .foreignBlockOn b => if b < s.nBlockOns then some (s.foreignBlockOn b) else none

/-- One step of a thread. -/
def step (s : Thread V) (a : Action V) : Option (Thread V) :=
  if s.panicked.isSome then none else s.act a

/-- A thread at its start, whatever its pipe; some pointer fits into a pipe. -/
def IsStart (s : Thread V) : Prop :=
  ∃ pipeWr pipeCapacity, 0 < pipeCapacity ∧ s = start V pipeWr pipeCapacity

/-- A thread with a property that is reached by executing a sequence of actions. -/
lemma exists_reachableUnder (C : Thread V → Action V → Prop) [∀ s a, Decidable (C s a)]
    (actions : List (Action V)) (P : Thread V → Bool)
    (hP : (exec step (fun s a => decide (C s a)) (start V 3 16) actions).any P = true) :
    ∃ s : Thread V, ReachableUnder step IsStart C s ∧ P s = true :=
  ReachableUnder.exists_run step C ⟨3, 16, by decide, rfl⟩ actions hP

/-- A reachable thread with a property. -/
lemma exists_reachable (actions : List (Action V)) (P : Thread V → Bool)
    (hP : (exec step (fun _ _ => true) (start V 3 16) actions).any P = true) :
    ∃ s : Thread V, Reachable step IsStart s ∧ P s = true :=
  ReachableUnder.exists_free_run step ⟨3, 16, by decide, rfl⟩ actions hP

/-- A thread with a property that is reached, with the observer, by executing a sequence of actions. -/
lemma exists_observed {γ : Type} (next : Thread V → Action V → Thread V → γ → γ) (g₀ : γ)
    (C : Thread V × γ → Action V → Prop) [∀ p a, Decidable (C p a)] (actions : List (Action V))
    (P : Thread V × γ → Bool)
    (hP : (exec (observe step next) (fun p a => decide (C p a)) (start V 3 16, g₀) actions).any P =
      true) :
    ∃ p : Thread V × γ,
      ReachableUnder (observe step next) (fun p => p.1.IsStart ∧ p.2 = g₀) C p ∧ P p = true :=
  ReachableUnder.exists_run _ C ⟨⟨3, 16, by decide, rfl⟩, rfl⟩ actions hP

end Thread

end Epox

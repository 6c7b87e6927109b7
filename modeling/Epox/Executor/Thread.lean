import Epox.Executor.Data

/-!
# A thread and its executor

`Thread` is the memory of one thread that uses the crate: its current executor and those being
dropped, the tasks and `Fd`s created on it, its call stack, and the wakes that other threads are
carrying out on its tasks.  The functions below are those of `executor.rs`, `task.rs` and `fd.rs`, each
under the name it has there; a closure given to `exec` runs without interruption, since no other code
of the thread runs while the executor is borrowed and the only thing other threads share with it is
the pipe, to the back of which they append.

Where the source calls the kernel, the answer is an argument of the function (`KernelAnswer`), and
`Thread.answers` states which answers the kernel may give.
-/

namespace Epox

/-- The memory of one thread. -/
structure Thread (V : Type) where
  /-- The executor in the thread-local `EXECUTOR`. -/
  cur : ExecId
  execs : ExecId → Executor
  /-- The queues of all executors of the thread. -/
  queues : Family QueueId TaskId
  tasks : TaskId → ExecutorTask V
  nTasks : ℕ
  fds : FdId → Fd
  nFds : ℕ
  /-- The descriptor in the waker of each call of `block_on`. -/
  blockOnPipe : BlockOnId → RawFd
  nBlockOns : ℕ
  /-- The call stack, innermost activation first. -/
  stack : List Frame
  /-- The tasks being woken by other threads; each such wake holds an upgraded reference. -/
  waking : List TaskId
  /-- How many pointers fit into a pipe. -/
  pipeCapacity : ℕ
  log : List Event
  panicked : Option Panic

/-- How a call into the executor ends: it returns `Ok`, it returns `Err`, or it panics. -/
inductive Outcome (V : Type)
  | ok (s : Thread V)
  | err (s : Thread V)
  | panic (p : Panic) (s : Thread V)

namespace Thread

variable {V : Type}

/-- A thread that has just created its first executor. -/
def start (V : Type) (pipeWr : RawFd) (pipeCapacity : ℕ) : Thread V where
  cur := 0
  execs _ := Executor.new pipeWr
  queues := Family.empty
  tasks _ := default
  nTasks := 0
  fds _ := default
  nFds := 0
  blockOnPipe _ := 0
  nBlockOns := 0
  stack := [.user]
  waking := []
  pipeCapacity := pipeCapacity
  log := []
  panicked := none

/-! ## Reading and writing the memory -/

/-- The executor in `EXECUTOR`. -/
def executor (s : Thread V) : Executor := s.execs s.cur

/-- Change an executor. -/
def setExec (s : Thread V) (x : ExecId) (e : Executor) : Thread V :=
  { s with execs := Function.update s.execs x e }

/-- Change a task. -/
def setTask (s : Thread V) (t : TaskId) (e : ExecutorTask V) : Thread V :=
  { s with tasks := Function.update s.tasks t e }

/-- Change an `Fd`. -/
def setFd (s : Thread V) (f : FdId) (e : Fd) : Thread V :=
  { s with fds := Function.update s.fds f e }

/-- Record what has happened. -/
def emit (s : Thread V) (e : Event) : Thread V :=
  { s with log := e :: s.log }

/-- Replace the call stack. -/
def setStack (s : Thread V) (stack : List Frame) : Thread V :=
  { s with stack := stack }

/-- `panic!`. -/
def panic (s : Thread V) (p : Panic) : Thread V :=
  { s with panicked := some p }

end Thread

/-- The task whose reference an activation of `run_task` owns. -/
def Frame.held : Frame → Option TaskId
  | .runTask _ .drop => none
  | .runTask t _ => some t
  | _ => none

/-- The thread after a call that ignores an error of `epoll_wait`. -/
def Outcome.ignoreErr {V : Type} : Outcome V → Outcome V
  | .err s => .ok s
  | o => o

/-- Go on after a call that returned `Ok`. -/
def Outcome.andThen {V : Type} (o : Outcome V) (f : Thread V → Thread V) : Outcome V :=
  match o with
  | .ok s => .ok (f s)
  | o => o

/-- The thread after a call from the caller's code. -/
def Outcome.thread {V : Type} : Outcome V → Thread V
  | .ok s => s
  | .err s => s
  | .panic p s => s.panic p

namespace Thread

variable {V : Type}

/-- `is_queued` of a task. -/
def isQueued (s : Thread V) (t : TaskId) : Bool := (s.queues.home t).isSome

/-- The tasks that activations of `run_task` own, innermost first. -/
def running (s : Thread V) : List TaskId := s.stack.filterMap Frame.held

/-- `Weak::upgrade` succeeds: a strong reference to the task is held by a queue, by an activation of
`run_task`, by its `Handle` or by a wake in progress on another thread. -/
def alive (s : Thread V) (t : TaskId) : Bool :=
  s.isQueued t || (s.tasks t).handle || s.running.contains t || s.waking.contains t

/-! ## The queues of the executor -/

/-- `Executor::enqueue`. -/
def enqueue (s : Thread V) (t : TaskId) : Thread V :=
  if (s.tasks t).hasCompleted then
    s
  else
    { s with
      queues := s.queues.push (s.cur, runq (s.tasks t).priority) t
      log := .enqueued t :: s.log }

/-- `Executor::sleep`. -/
def sleep (s : Thread V) (t : TaskId) : Thread V :=
  { s with queues := s.queues.push (s.cur, .sleepq) t }

/-- `Executor::highest_priority_runnable_task`. -/
def highestPriorityRunnableTask (s : Thread V) : Option (TaskId × Thread V) :=
  let popped := (s.queues.pop (s.cur, .runqHigh)).or
    ((s.queues.pop (s.cur, .runqNormal)).or (s.queues.pop (s.cur, .runqLow)))
  popped.map fun r => (r.1, { s with queues := r.2 })

/-- `Executor::abort`, called by `Handle::abort`. -/
def abort (s : Thread V) (t : TaskId) : Thread V :=
  { s with queues := s.queues.release t, log := .aborted t :: s.log }

/-- `Executor::spawn`. -/
def spawn (s : Thread V) (priority : Priority) : Thread V :=
  let t := s.nTasks
  let task : ExecutorTask V :=
    { exec := s.cur
      pipeWr := s.executor.pipeWr
      handleWaker := .noop
      priority := priority
      hasCompleted := false
      borrowed := false
      output := none
      handle := true }
  enqueue { s with
    tasks := Function.update s.tasks t task
    nTasks := t + 1
    log := .spawned t :: s.log } t

/-! ## Waiting for events -/

/-- The events that `epoll_wait(2)` may report on the current executor: the pipe while it holds a
pointer, and a registered `Fd` with some flag set. -/
def reports (s : Thread V) : EpollEvent → Prop
  | .pipe => s.executor.pipe ≠ []
  | .fd f flags => flags ≠ 0 ∧ ((s.fds f).raw, f) ∈ s.executor.interest

instance (s : Thread V) : DecidablePred s.reports
  | .pipe => inferInstanceAs (Decidable (s.executor.pipe ≠ []))
  | .fd f flags =>
    inferInstanceAs (Decidable (flags ≠ 0 ∧ ((s.fds f).raw, f) ∈ s.executor.interest))

/-- The answers the kernel may give to `epoll_wait(2)` on the current executor: at most as many events
as fit into the buffer, one for each registration; while the pipe holds a pointer it is always
reported if it fits into the buffer (its registration is level-triggered); `EINTR` only if there is
nothing to report. -/
def answers (s : Thread V) : KernelAnswer → Prop
  | .ok evs =>
    evs.length ≤ s.executor.events ∧ (evs.map EpollEvent.key).Nodup ∧ (∀ e ∈ evs, s.reports e) ∧
      (s.executor.pipe ≠ [] → .pipe ∈ evs ∨ evs.length = s.executor.events)
  | .error .eintr => s.executor.pipe = []
  | .error .other => True

instance (s : Thread V) : DecidablePred s.answers
  | .ok evs => inferInstanceAs (Decidable (evs.length ≤ s.executor.events ∧
      (evs.map EpollEvent.key).Nodup ∧ (∀ e ∈ evs, s.reports e) ∧
        (s.executor.pipe ≠ [] → .pipe ∈ evs ∨ evs.length = s.executor.events)))
  | .error .eintr => inferInstanceAs (Decidable (s.executor.pipe = []))
  | .error .other => inferInstanceAs (Decidable True)

/-- `Executor::wake_from_pipe`; `none` if `read` fails. -/
def wakeFromPipe (s : Thread V) : Option (Thread V) :=
  match s.executor.pipe with
  | [] => none
  | p :: rest =>
    let s' := s.setExec s.cur { s.executor with pipe := rest }
    match p with
    | none => some s'
    | some t => some (if s'.alive t then s'.enqueue t else s')

/-- The body of the loop of `Executor::epoll_wait` for an event of an `Fd`; `none` if its `EpollWaker`
is already borrowed. -/
def deliver (s : Thread V) (f : FdId) (e : EpollFlags) : Option (Thread V) :=
  let fd := s.fds f
  if fd.borrowed then
    none
  else if fd.ew.events.contains e then
    some s
  else
    let s' := s.setFd f { fd with ew := { fd.ew with events := fd.ew.events ||| e } }
    match fd.ew.waker with
    | .task t => some (if s'.alive t then s'.enqueue t else s')
    | _ => some s'

/-- The loop of `Executor::epoll_wait` over the reported events. -/
def wakeup (s : Thread V) : List EpollEvent → Outcome V
  | [] => .ok s
  | .pipe :: evs =>
    match s.wakeFromPipe with
    | some s' => s'.wakeup evs
    | none => .err s
  | .fd f e :: evs =>
    match s.deliver f e with
    | some s' => s'.wakeup evs
    | none => .panic (.wakerBorrowed f) s

/-- `Executor::epoll_wait`. -/
def epollWait (s : Thread V) (k : KernelAnswer) : Outcome V :=
  if s.executor.events = 0 then
    .ok s
  else
    match k with
    | .ok evs => s.wakeup evs
    | .error .eintr => .ok s
    | .error .other => .err s

/-! ## Wakers -/

/-- The executor of the thread whose pipe the descriptor refers to, if any. -/
def pipeOf (s : Thread V) (fd : RawFd) : Option ExecId :=
  if s.executor.pipeWr = fd then
    some s.cur
  else
    (List.range s.cur).find? fun x => (s.execs x).isOpen && (s.execs x).pipeWr == fd

/-- `write` of a pointer to a descriptor.  It fails (`none`) if the pipe is full; a descriptor that
does not refer to a pipe of the thread leaves the thread as it is. -/
def write (s : Thread V) (fd : RawFd) (p : Option TaskId) : Option (Thread V) :=
  match s.pipeOf fd with
  | none => some s
  | some x =>
    if (s.execs x).pipe.length < s.pipeCapacity then
      some (s.setExec x { s.execs x with pipe := (s.execs x).pipe ++ [p] })
    else
      none

/-- `task_waker::wake`, called on this thread. -/
def taskWake (s : Thread V) (k : KernelAnswer) (t : TaskId) : Outcome V :=
  if s.alive t then
    if (s.tasks t).pipeWr = s.executor.pipeWr then
      let checked := if (s.tasks t).borrowed then (s.epollWait k).ignoreErr else .ok s
      checked.andThen fun s' => (s'.enqueue t).emit (.woken t)
    else
      match s.write (s.tasks t).pipeWr (some t) with
      | some s' => .ok (s'.emit (.woken t))
      | none => .panic .pipeWrite s
  else
    .ok (s.emit (.woken t))

/-- The `wake` of the waker that `block_on` builds, called on this thread. -/
def blockOnWake (s : Thread V) (pipeWr : RawFd) (b : BlockOnId) : Outcome V :=
  if pipeWr = s.executor.pipeWr then
    .ok (s.emit (.blockOnWoken b))
  else
    match s.write pipeWr none with
    | some s' => .ok (s'.emit (.blockOnWoken b))
    | none => .panic .pipeWrite s

/-- `Waker::wake_by_ref`. -/
def wake (s : Thread V) (k : KernelAnswer) : Waker → Outcome V
  | .task t => s.taskWake k t
  | .blockOn pipeWr b => s.blockOnWake pipeWr b
  | .noop => .ok s
  | .other j => .ok (s.emit (.otherWoken j))

/-! ## Handles -/

/-- `Handle::result`: it takes the output out of its cell. -/
def handleResult (s : Thread V) (t : TaskId) : Thread V :=
  if (s.tasks t).borrowed then
    s.panic (.resultBorrowed t)
  else
    s.setTask t { s.tasks t with output := none }

/-- `Handle::poll` with the waker `w`. -/
def handlePoll (s : Thread V) (t : TaskId) (w : Waker) : Thread V :=
  if (s.tasks t).borrowed then
    s.panic (.resultBorrowed t)
  else
    match (s.tasks t).output with
    | some _ => s.setTask t { s.tasks t with output := none }
    | none => s.setTask t { s.tasks t with handleWaker := w }

/-! ## Descriptors of interest -/

/-- `Executor::epoll_add`: whether `epoll_ctl(2)` succeeds is up to the kernel (`ctl`), but it never
does for a descriptor that is in the interest set already. -/
def epollAdd (s : Thread V) (raw : RawFd) (f : FdId) (ctl : Bool) : Thread V × Bool :=
  let e := { s.executor with events := s.executor.events + 1 }
  if ctl && !(e.interest.map Prod.fst).contains raw then
    (s.setExec s.cur { e with interest := e.interest ++ [(raw, f)] }, true)
  else
    (s.setExec s.cur e, false)

/-- `Executor::epoll_del`; deleting a descriptor that is not in the interest set is an error that the
only caller ignores. -/
def epollDel (s : Thread V) (raw : RawFd) : Thread V :=
  let e := s.executor
  s.setExec s.cur
    { e with events := e.events - 1, interest := e.interest.filter fun i => i.1 ≠ raw }

/-- `Fd::drop`. -/
def fdDrop (s : Thread V) (f : FdId) : Thread V :=
  ((s.epollDel (s.fds f).raw).setFd f { s.fds f with live := false }).emit (.fdDropped f s.cur)

/-- `Fd::new` of a descriptor.  `fcntl` tells whether `fcntl(2)` succeeds, `ctl` whether `epoll_ctl(2)`
does; if the latter fails the half-built `Fd` is dropped. -/
def fdNew (s : Thread V) (raw : RawFd) (events : EpollFlags) (fcntl ctl : Bool) : Thread V :=
  if fcntl then
    let f := s.nFds
    let fd : Fd :=
      { raw := raw
        ew := EpollWaker.new (events &&& (EpollFlags.epollIn ||| EpollFlags.epollOut))
        borrowed := false
        exec := s.cur
        live := true }
    let r := epollAdd { s with fds := Function.update s.fds f fd, nFds := f + 1 } raw f ctl
    if r.2 then r.1 else r.1.fdDrop f
  else
    s

/-- `Fd::poll_with`, up to the first call of the closure; the caller's context has the waker `cx`. -/
def pollWith (s : Thread V) (k : KernelAnswer) (f : FdId) (cx : Waker) : Outcome V :=
  let fd := s.fds f
  if fd.borrowed then
    .panic (.wakerBorrowed f) s
  else
    match fd.ew.pollWithEnter cx with
    | .pending ew => .ok (s.setFd f { fd with ew := ew })
    | .yield ew => (s.setFd f { fd with ew := ew }).wake k cx
    | .call => .ok ((s.setFd f { fd with borrowed := true }).setStack (.pollWith f cx :: s.stack))

end Thread

end Epox

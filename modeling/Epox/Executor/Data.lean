import Epox.Foundation.Family
import Mathlib.Data.BitVec
import Mathlib.Data.List.Basic

/-!
# The data of the executor

The data types of `executor.rs`, `task.rs` and `fd.rs`.  Heap objects are named by numbers that are
never reused: a `TaskId` stands for the address of an `ExecutorTask`, an `FdId` for the address of the
`EpollWaker` of an `Fd`, an `ExecId` for one executor instance of the thread (the `n`-th one has number
`n`), and a `BlockOnId` for one call of `block_on`.  Descriptors (`RawFd`) are the numbers the kernel
hands out; these *are* reused.

Futures are not part of the state: a poll runs arbitrary code of the caller, so what a future does is
left to the environment (see `Machine.lean`).  Left out as well are the names of tasks and everything
behind the `tracing` feature, which no function reads back.
-/

namespace Epox

/-- The address of an `ExecutorTask`. -/
abbrev TaskId := ℕ

/-- An executor instance of the thread, in order of creation. -/
abbrev ExecId := ℕ

/-- The address of the `EpollWaker` of an `Fd`. -/
abbrev FdId := ℕ

/-- A call of `block_on`, in order of the calls. -/
abbrev BlockOnId := ℕ

/-- A descriptor number. -/
abbrev RawFd := ℕ

/-! ## Readiness flags -/

/-- `EpollFlags`: the event bits of `epoll(7)`. -/
abbrev EpollFlags := BitVec 32

namespace EpollFlags

/-- `EPOLLIN`. -/
def epollIn : EpollFlags := 1#32

/-- `EPOLLOUT`. -/
def epollOut : EpollFlags := 4#32

/-- `EpollFlags::contains`: all bits of `e` are set. -/
def contains (events e : EpollFlags) : Bool := events &&& e == e

/-- No flag is contained in the empty set but the empty one. -/
lemma contains_zero {e : EpollFlags} (he : e ≠ 0) : contains 0 e = false := by
  have h : ¬ 0#32 = e := fun h => he h.symm
  simpa [contains] using h

end EpollFlags

/-! ## Wakers -/

/-- A `Waker`, by its vtable.  The data of the waker that `block_on` builds is only the descriptor
number; which call it was built for is recorded for the statements about it. -/
inductive Waker
  /-- `task_waker::VTABLE`, with the weak pointer to the task. -/
  | task (t : TaskId)
  /-- The waker of `block_on`. -/
  | blockOn (pipeWr : RawFd) (b : BlockOnId)
  /-- `Waker::noop()`. -/
  | noop
  /-- Any waker with a vtable of its own, such as those of combinators. -/
  | other (k : ℕ)
  deriving DecidableEq, Inhabited

/-! ## Tasks and queues -/

/-- `enum Priority`. -/
inductive Priority
  | high
  | normal
  | low
  deriving DecidableEq, Inhabited

/-- The four queues of an executor. -/
inductive QueueName
  | runqHigh
  | runqNormal
  | runqLow
  | sleepq
  deriving DecidableEq

/-- A queue of one executor instance. -/
abbrev QueueId := ExecId × QueueName

/-- `Executor::runq`. -/
def runq : Priority → QueueName
  | .high => .runqHigh
  | .normal => .runqNormal
  | .low => .runqLow

/-- No run queue is the sleep queue. -/
@[simp] lemma runq_ne_sleepq (p : Priority) : runq p ≠ .sleepq := by
  cases p <;> simp [runq]

/-- `struct ExecutorTask`, with the output cell of its future.  `exec` is the executor the task was
spawned on; the source only keeps the descriptor `pipeWr`. -/
structure ExecutorTask (V : Type) where
  exec : ExecId
  pipeWr : RawFd
  handleWaker : Waker
  priority : Priority
  hasCompleted : Bool
  /-- The `RefCell` around the future is mutably borrowed. -/
  borrowed : Bool
  /-- `Inner::output`. -/
  output : Option V
  /-- The `Handle` that `spawn` returned has not been dropped. -/
  handle : Bool
  deriving Inhabited

/-! ## Descriptors of interest -/

/-- `struct EpollWaker`. -/
structure EpollWaker where
  waker : Waker
  events : EpollFlags
  burst : ℕ
  deriving Inhabited

/-- `EpollWaker::new`. -/
def EpollWaker.new (events : EpollFlags) : EpollWaker where
  waker := .noop
  events := events
  burst := 0

/-- `BURST_LIMIT`. -/
def burstLimit : ℕ := 20

/-- What the closure given to `poll_with` returns. -/
inductive IoResult
  /-- `ErrorKind::Interrupted`. -/
  | interrupted
  /-- `ErrorKind::WouldBlock`. -/
  | wouldBlock
  /-- Success, or any other error. -/
  | done
  deriving DecidableEq

/-- How `EpollWaker::poll_with` goes on before it calls the closure. -/
inductive PollEntry
  | pending (ew : EpollWaker)
  | yield (ew : EpollWaker)
  | call

/-- `EpollWaker::poll_with` up to the loop around the closure. -/
def EpollWaker.pollWithEnter (ew : EpollWaker) (cx : Waker) : PollEntry :=
  if ew.events = 0 then
    .pending { ew with burst := 0, waker := cx }
  else if burstLimit ≤ ew.burst then
    .yield { ew with burst := 0 }
  else
    .call

/-- The body of the loop of `EpollWaker::poll_with`; `none` if the closure is called again. -/
def EpollWaker.pollWithReturn (ew : EpollWaker) (cx : Waker) : IoResult → Option EpollWaker
  | .interrupted => none
  | .wouldBlock => some { waker := cx, events := 0, burst := 0 }
  | .done => some { ew with burst := ew.burst + 1 }

/-- `struct Fd`.  `exec` is the executor that `Fd::new` registered it with. -/
structure Fd where
  raw : RawFd
  ew : EpollWaker
  /-- The `RefCell` around the `EpollWaker` is mutably borrowed. -/
  borrowed : Bool
  exec : ExecId
  /-- Not dropped yet. -/
  live : Bool
  deriving Inhabited

/-! ## The executor -/

/-- `struct Executor` without its queues.  Of `events` only the length matters; a pipe holds the
pointers written to it and not read yet, `none` being the null pointer. -/
structure Executor where
  pipeWr : RawFd
  pipe : List (Option TaskId)
  events : ℕ
  /-- The interest set of the epoll instance: descriptor numbers and the `EpollWaker`s registered. -/
  interest : List (RawFd × FdId)
  shutdown : Bool
  /-- The pipe of the executor has not been closed. -/
  isOpen : Bool
  deriving Inhabited

/-- `Executor::new`, with the descriptor the kernel chose for the write end of the pipe. -/
def Executor.new (pipeWr : RawFd) : Executor where
  pipeWr := pipeWr
  pipe := []
  events := 1
  interest := []
  shutdown := false
  isOpen := true

/-! ## The kernel's side of `epoll_wait` -/

/-- An event that `epoll_wait(2)` reports: the wake pipe (`e.data() == 0`) or a registered `Fd`. -/
inductive EpollEvent
  | pipe
  | fd (f : FdId) (events : EpollFlags)
  deriving DecidableEq

/-- The registration an event belongs to. -/
def EpollEvent.key : EpollEvent → Option FdId
  | .pipe => none
  | .fd f _ => some f

/-- The errors the code tells apart. -/
inductive Errno
  | eintr
  | other
  deriving DecidableEq

/-- The answer of the kernel to one `epoll_wait(2)`. -/
abbrev KernelAnswer := Except Errno (List EpollEvent)

/-! ## What can go wrong -/

/-- The panics of the source. -/
inductive Panic
  /-- `run_task`: the future is already mutably borrowed. -/
  | taskBorrowed (t : TaskId)
  /-- `Handle::result`: the future is already mutably borrowed. -/
  | resultBorrowed (t : TaskId)
  /-- The `EpollWaker` of an `Fd` is already mutably borrowed. -/
  | wakerBorrowed (f : FdId)
  /-- "error writing to task wake pipe". -/
  | pipeWrite
  /-- `block_on` unwraps the result of `epoll_wait`. -/
  | blockOnWait
  deriving DecidableEq

/-! ## The call stack and the history -/

/-- Where a call of `run` is. -/
inductive RunPc
  /-- About to take the next runnable task. -/
  | select
  /-- Polling a task, or just back from it: the shutdown flag comes next. -/
  | afterTask
  /-- At `epoll_wait(EpollTimeout::ZERO)`. -/
  | waitZero
  /-- No task is runnable: is the sleep queue empty? -/
  | checkSleepq
  /-- At `epoll_wait(EpollTimeout::NONE)`. -/
  | waitNone
  /-- Out of the loop: `EXECUTOR.replace(Executor::new()?)`. -/
  | replace
  /-- Dropping the queues of the replaced executor. -/
  | teardown (x : ExecId)
  /-- In the destructor of a future that was in one of these queues. -/
  | dropping (x : ExecId)
  deriving DecidableEq

/-- Where a call of `run_task` is. -/
inductive TaskPc
  /-- In the poll of the future. -/
  | polling
  /-- The future is ready: wake the handle with the waker taken out of `handle_waker`. -/
  | wakeHandle (w : Waker)
  /-- In the code of a foreign waker called for the handle. -/
  | inHandleWake
  /-- About to set `has_completed`. -/
  | complete
  /-- The future is pending: sleep unless queued. -/
  | settle
  /-- In the destructor of the future, after the last reference has gone. -/
  | drop
  deriving DecidableEq

/-- Where a call of `block_on` is. -/
inductive BlockOnPc
  /-- In the poll of its future. -/
  | polling
  /-- About to take the next runnable task. -/
  | select
  /-- Polling a task, or just back from it: `epoll_wait(EpollTimeout::ZERO)` comes next. -/
  | waitZero
  /-- At `epoll_wait(EpollTimeout::NONE)`. -/
  | waitNone
  deriving DecidableEq

/-- An activation record of the thread. -/
inductive Frame
  /-- The thread's own code. -/
  | user
  | run (pc : RunPc)
  | runTask (t : TaskId) (pc : TaskPc)
  | blockOn (b : BlockOnId) (pc : BlockOnPc)
  /-- `Fd::poll_with`, in the closure of the caller. -/
  | pollWith (f : FdId) (cx : Waker)
  deriving DecidableEq

/-- What has happened on the thread, as far as the statements speak of it. -/
inductive Event
  | spawned (t : TaskId)
  /-- `Executor::enqueue` pushed the task. -/
  | enqueued (t : TaskId)
  /-- A poll of the future of the task began. -/
  | polled (t : TaskId)
  /-- The future returned `Poll::Ready`. -/
  | ready (t : TaskId)
  /-- `has_completed` was set. -/
  | completed (t : TaskId)
  | aborted (t : TaskId)
  /-- The task was taken out of a queue of a replaced executor. -/
  | discarded (t : TaskId)
  /-- A wake through a waker of the task has returned. -/
  | woken (t : TaskId)
  /-- A poll of the future of a `block_on` began. -/
  | blockOnPolled (b : BlockOnId)
  /-- A waker of a `block_on` was invoked. -/
  | blockOnWoken (b : BlockOnId)
  /-- A foreign waker was invoked. -/
  | otherWoken (k : ℕ)
  /-- An `Fd` was dropped while `x` was the executor of the thread. -/
  | fdDropped (f : FdId) (x : ExecId)
  /-- `run` on `x` has returned `Ok`, with the shutdown flag as given. -/
  | ran (x : ExecId) (shutdown : Bool)
  deriving DecidableEq

/-- What the invocation of a waker leaves in the history. -/
def Waker.event : Waker → Option Event
  | .task t => some (.woken t)
  | .blockOn _ b => some (.blockOnWoken b)
  | .noop => none
  | .other k => some (.otherWoken k)

/-- The event is an invocation of a waker. -/
def Event.isInvocation : Event → Bool
  | .woken _ | .blockOnWoken _ | .otherWoken _ => true
  | _ => false

end Epox

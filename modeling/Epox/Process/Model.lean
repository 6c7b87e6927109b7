import Epox.Executor.WellFormed

/-!
# A process with several threads

Each thread has an executor of its own, but the descriptors belong to the process: a task and the waker of
a `block_on` know their executor only by the number of its pipe, and the kernel hands a number out again
once it has been closed, to the pipe of another executor or to any other file.

The memory that the threads of a `Process` share has the form of the memory of one thread, and `P.on x` is
what a thread sees whose executor is `x`; so the methods of an executor are those of `Thread.lean`.  Left
out is the order in which a thread calls them: every thread calls every method at any time, which covers
the orders of `run` and `block_on` in `Machine.lean`.  The references that threads hold for the moment, to
poll a task or to wake it, are kept in `waking`; the call stack is not used.

A wake of a task takes three steps, between which the other threads go on: the weak reference is upgraded
(`upgrade`), the closure given to `exec` wakes the task (`wake`), and the reference is given up (`release`).
What the closure does is given as the list of its operations (`Op`), which `perform` carries out.
-/

namespace Epox

/-- A thread of the process. -/
abbrev ThreadId := ℕ

/-- What a descriptor refers to. -/
inductive File
  /-- The pipe of an executor, for writing. -/
  | pipe (x : ExecId)
  /-- Any other file. -/
  | other (j : ℕ)
  deriving DecidableEq

/-- An operation on an executor or on a descriptor. -/
inductive Op
  /-- `epoll_wait` on the executor. -/
  | wait (x : ExecId)
  /-- The executor pushes the task to its run queue. -/
  | enqueue (x : ExecId) (t : TaskId)
  /-- `write` of a pointer to an open file. -/
  | write (f : File) (p : Option TaskId)
  deriving DecidableEq

/-- The state of a process.  Executors are numbered in order of creation, over all threads. -/
structure Process (V : Type) where
  memory : Thread V
  /-- The executor in the thread-local `EXECUTOR` of each thread. -/
  current : ThreadId → Option ExecId
  /-- The thread an executor was created on. -/
  owner : ExecId → ThreadId
  nExecs : ℕ
  /-- The table of the open descriptors, as far as they can be written to. -/
  files : RawFd → Option File
  /-- The executor each `block_on` was called on. -/
  blockOnExec : BlockOnId → ExecId
  /-- The pointers that were written to other files. -/
  written : List (ℕ × Option TaskId)

namespace Process

variable {V : Type}

/-! ## Executors and descriptors -/

/-- What a thread sees whose executor is `x`. -/
def on (P : Process V) (x : ExecId) : Thread V := { P.memory with cur := x }

/-- Change the memory, which is that of no thread in particular. -/
def setMemory (P : Process V) (s : Thread V) : Process V :=
  { P with memory := { s with cur := P.memory.cur } }

/-- `exec`: do something with the thread-local executor of the thread `i`. -/
def exec (P : Process V) (i : ThreadId) (f : Thread V → Thread V) : Option (Process V) :=
  (P.current i).map fun x => P.setMemory (f (P.on x))

/-- `Executor::new` on the thread `i`, with the descriptor the kernel chose for its pipe. -/
def newExecutor (P : Process V) (i : ThreadId) (pipeWr : RawFd) : Process V :=
  { P with
    memory := P.memory.setExec P.nExecs (Executor.new pipeWr)
    current := Function.update P.current i (some P.nExecs)
    owner := Function.update P.owner P.nExecs i
    nExecs := P.nExecs + 1
    files := Function.update P.files pipeWr (some (.pipe P.nExecs)) }

/-- The executor is no longer that of its thread. -/
def replaced (P : Process V) (x : ExecId) : Prop := P.current (P.owner x) ≠ some x

instance (P : Process V) (x : ExecId) : Decidable (P.replaced x) :=
  inferInstanceAs (Decidable (P.current (P.owner x) ≠ some x))

/-- The pipe of a replaced executor is closed. -/
def closePipe (P : Process V) (x : ExecId) : Process V :=
  { P with
    memory := P.memory.setExec x { P.memory.execs x with isOpen := false }
    files := Function.update P.files (P.memory.execs x).pipeWr none }

/-- `block_on` on the executor `x`, up to the waker that it builds. -/
def blockOn (P : Process V) (x : ExecId) : Process V :=
  let b := P.memory.nBlockOns
  { P with
    memory := { P.memory with
      blockOnPipe := Function.update P.memory.blockOnPipe b (P.memory.execs x).pipeWr
      nBlockOns := b + 1 }
    blockOnExec := Function.update P.blockOnExec b x }

/-! ## Wakes -/

/-- `write` of a pointer to a descriptor; nothing happens on `EBADF`. -/
def writeTo (P : Process V) (fd : RawFd) (p : Option TaskId) : List Op :=
  match P.files fd with
  | some f => [.write f p]
  | none => []

/-- The closure of `task_waker::wake`, called on a thread whose executor is `x`. -/
def taskWake (P : Process V) (x : ExecId) (t : TaskId) : List Op :=
  if (P.memory.tasks t).pipeWr = (P.memory.execs x).pipeWr then
    (if (P.memory.tasks t).borrowed then [.wait x] else []) ++
      (if (P.memory.tasks t).hasCompleted then [] else [.enqueue x t])
  else
    P.writeTo (P.memory.tasks t).pipeWr (some t)

/-- The closure in the `wake` of the waker that `block_on` builds, called on a thread whose executor is
`x`. -/
def blockOnWake (P : Process V) (x : ExecId) (pipeWr : RawFd) : List Op :=
  if pipeWr = (P.memory.execs x).pipeWr then [] else P.writeTo pipeWr none

/-- What the invocation of a waker does to executors and descriptors, on a thread whose executor is `x`. -/
def wake (P : Process V) (x : ExecId) : Waker → List Op
  | .task t => P.taskWake x t
  | .blockOn pipeWr _ => P.blockOnWake x pipeWr
  | .noop => []
  | .other _ => []

/-- The weak reference in the waker has been upgraded, if it holds one. -/
def upgraded (P : Process V) : Waker → Bool
  | .task t => P.memory.waking.contains t
  | .blockOn _ _ | .noop | .other _ => true

/-- Carry out an operation; `k` answers `epoll_wait`.  The flag tells that it does not panic. -/
def perform (P : Process V) (k : KernelAnswer) : Op → Process V × Bool
  | .wait x =>
    let o := ((P.on x).epollWait k).ignoreErr
    (P.setMemory o.memory, o.panicked.isNone)
  | .enqueue x t => (P.setMemory ((P.on x).enqueue t), true)
  | .write (.pipe x) p =>
    let e := P.memory.execs x
    if e.pipe.length < P.memory.pipeCapacity then
      (P.setMemory (P.memory.setExec x { e with pipe := e.pipe ++ [p] }), true)
    else
      (P, false)
  | .write (.other j) p => ({ P with written := (j, p) :: P.written }, true)

/-- Carry out operations, up to the first one that panics. -/
def performAll (P : Process V) (k : KernelAnswer) : List Op → Process V × Bool
  | [] => (P, true)
  | op :: ops =>
    match P.perform k op with
    | (P', true) => P'.performAll k ops
    | (P', false) => (P', false)

end Process

/-! ## Steps -/

/-- What a thread of the process does next. -/
inductive ProcessAction (V : Type)
  /-- The thread uses its executor for the first time. -/
  | start (i : ThreadId) (pipeWr : RawFd)
  /-- `run` has ended and replaces the executor. -/
  | replace (i : ThreadId) (pipeWr : RawFd)
  /-- The thread ends. -/
  | exit (i : ThreadId)
  /-- A replaced executor drops a task in one of its queues. -/
  | discard (x : ExecId) (t : TaskId)
  /-- A replaced executor closes its pipe. -/
  | close (x : ExecId)
  | openFile (fd : RawFd) (j : ℕ)
  | closeFile (fd : RawFd)
  | spawn (i : ThreadId) (priority : Priority)
  | blockOn (i : ThreadId)
  /-- `epoll_wait`, called by `run` or `block_on`. -/
  | wait (i : ThreadId) (k : KernelAnswer)
  /-- The next runnable task is taken and its poll begins. -/
  | poll (i : ThreadId)
  /-- A poll has returned `Poll::Pending`. -/
  | pending (i : ThreadId) (t : TaskId)
  /-- A poll has returned `Poll::Ready`. -/
  | complete (t : TaskId)
  | abort (i : ThreadId) (t : TaskId)
  | dropHandle (t : TaskId)
  /-- A thread that wakes a task upgrades its weak reference; without a strong one the wake is over. -/
  | upgrade (t : TaskId)
  /-- A thread gives up a reference to a task. -/
  | release (t : TaskId)
  | fdNew (i : ThreadId) (raw : RawFd) (events : EpollFlags) (fcntl ctl : Bool)
  | fdDrop (i : ThreadId) (f : FdId)
  /-- `poll_with` changes what an `Fd` stores. -/
  | pollWith (f : FdId) (ew : EpollWaker) (borrowed : Bool)
  /-- A thread that invokes a waker has called `exec`. -/
  | wake (i : ThreadId) (w : Waker) (k : KernelAnswer)

namespace Process

variable {V : Type}

/-- One step of a process. -/
def step (P : Process V) : ProcessAction V → Option (Process V)
  | .start i pipeWr =>
    if P.current i = none ∧ P.files pipeWr = none then some (P.newExecutor i pipeWr) else none
  | .replace i pipeWr =>
    if P.current i ≠ none ∧ P.files pipeWr = none then some (P.newExecutor i pipeWr) else none
  | .exit i => some { P with current := Function.update P.current i none }
  | .discard x t =>
    if (P.memory.queues.home t).any (fun q => q.1 == x) ∧ P.replaced x then
      some (P.setMemory { P.memory with
        queues := P.memory.queues.release t, log := .discarded t :: P.memory.log })
    else
      none
  | .close x =>
    if x < P.nExecs ∧ (P.memory.execs x).isOpen ∧ P.replaced x then some (P.closePipe x) else none
  | .openFile fd j =>
    if P.files fd = none then
      some { P with files := Function.update P.files fd (some (.other j)) }
    else
      none
  | .closeFile fd =>
    match P.files fd with
    | some (.other _) => some { P with files := Function.update P.files fd none }
    | _ => none
  | .spawn i priority => P.exec i fun s => s.spawn priority
  | .blockOn i => (P.current i).map P.blockOn
  | .wait i k =>
    (P.current i).bind fun x =>
      if (P.on x).answers k then some (P.perform k (.wait x)).1 else none
  | .poll i =>
    P.exec i fun s =>
      match s.highestPriorityRunnableTask with
      | some (t, s') =>
        if (s'.tasks t).borrowed then
          s'
        else
          { s'.setTask t { s'.tasks t with borrowed := true } with waking := t :: s'.waking }
      | none => s
  | .pending i t =>
    if t ∈ P.memory.waking ∧ (P.memory.tasks t).borrowed then
      P.exec i fun s =>
        let s' := { s.setTask t { s.tasks t with borrowed := false } with
          waking := s.waking.erase t }
        if s'.isQueued t then s' else s'.sleep t
    else
      none
  | .complete t =>
    if t ∈ P.memory.waking ∧ (P.memory.tasks t).borrowed then
      some (P.setMemory { P.memory.setTask t
        { P.memory.tasks t with hasCompleted := true, borrowed := false } with
          waking := P.memory.waking.erase t })
    else
      none
  | .abort i t => if (P.memory.tasks t).handle then P.exec i fun s => s.abort t else none
  | .dropHandle t =>
    some (P.setMemory (P.memory.setTask t { P.memory.tasks t with handle := false }))
  | .upgrade t =>
    some (if P.memory.alive t then
      P.setMemory { P.memory with waking := t :: P.memory.waking }
    else
      P)
  | .release t => some (P.setMemory { P.memory with waking := P.memory.waking.erase t })
  | .fdNew i raw events fcntl ctl => P.exec i fun s => s.fdNew raw events fcntl ctl
  | .fdDrop i f => P.exec i fun s => s.fdDrop f
  | .pollWith f ew borrowed =>
    some (P.setMemory (P.memory.setFd f { P.memory.fds f with ew := ew, borrowed := borrowed }))
  | .wake i w k =>
    (P.current i).bind fun x =>
      if P.memory.knows w ∧ P.upgraded w ∧ (P.on x).answers k then
        some (P.performAll k (P.wake x w)).1
      else
        none

/-- A process that has created no executor yet. -/
def start (V : Type) (pipeCapacity : ℕ) : Process V where
  memory := { Thread.start V 0 pipeCapacity with stack := [] }
  current _ := none
  owner _ := 0
  nExecs := 0
  files _ := none
  blockOnExec _ := 0
  written := []

/-- A process at its start; some pointer fits into a pipe. -/
def IsStart (P : Process V) : Prop := ∃ pipeCapacity, 0 < pipeCapacity ∧ P = start V pipeCapacity

/-! ## A process of one thread -/

/-- The process of a thread that has no other thread beside it. -/
def ofThread (s : Thread V) : Process V where
  memory := s
  current _ := some s.cur
  owner _ := 0
  nExecs := s.cur + 1
  files fd := (s.pipeOf fd).map .pipe
  blockOnExec _ := s.cur
  written := []

/-- What a wake records when it returns. -/
def note : Waker → List Event
  | .task t => [.woken t]
  | .blockOn _ b => [.blockOnWoken b]
  | .noop => []
  | .other j => [.otherWoken j]

/-- The memory of a process that keeps its executor. -/
lemma setMemory_memory {P : Process V} {s : Thread V} (h : s.cur = P.memory.cur) :
    (P.setMemory s).memory = s := by
  simp [setMemory, ← h]

/-- A write to a descriptor is that of the thread. -/
lemma performAll_writeTo (s : Thread V) (k : KernelAnswer) (fd : RawFd) (p : Option TaskId) :
    ((ofThread s).performAll k ((ofThread s).writeTo fd p)).1.memory = (s.write fd p).getD s ∧
      ((ofThread s).performAll k ((ofThread s).writeTo fd p)).2 = (s.write fd p).isSome := by
  unfold writeTo Thread.write
  cases hfd : s.pipeOf fd with
  | none => simp [ofThread, hfd, performAll]
  | some x =>
    simp only [ofThread, hfd, Option.map_some, performAll, perform]
    split_ifs
    · exact ⟨setMemory_memory rfl, rfl⟩
    · exact ⟨rfl, rfl⟩

/-- Enqueueing a task by an operation, if it has not completed, is `enqueue`. -/
lemma performAll_enqueue (P : Process V) (k : KernelAnswer) (x : ExecId) (t : TaskId) :
    P.performAll k (if (P.memory.tasks t).hasCompleted then [] else [.enqueue x t]) =
      (P.setMemory ((P.on x).enqueue t), true) := by
  split_ifs with hc
  · rw [Thread.enqueue_of_completed (show ((P.on x).tasks t).hasCompleted = true from hc)]
    rfl
  · rfl

/-- A wake of a process with one thread is that of the thread, if its task has not been freed, and except
for what the thread records. -/
theorem ofThread_wake (s : Thread V) (k : KernelAnswer) {w : Waker}
    (halive : ∀ t, w = .task t → s.alive t = true) :
    (s.wake k w).panicked.isNone = ((ofThread s).performAll k ((ofThread s).wake s.cur w)).2 ∧
      (s.wake k w).memory =
        let r := (ofThread s).performAll k ((ofThread s).wake s.cur w)
        if r.2 then { r.1.memory with log := note w ++ r.1.memory.log } else r.1.memory := by
  have hmem : (ofThread s).memory = s := rfl
  cases w with
  | task t =>
    simp only [wake, taskWake, Thread.wake, Thread.taskWake, hmem]
    rw [if_pos (halive t rfl)]
    by_cases hsame : (s.tasks t).pipeWr = s.executor.pipeWr
    · rw [if_pos hsame, if_pos (show _ = (s.execs s.cur).pipeWr from hsame)]
      -- The task is enqueued in the memory that `epoll_wait` has left, if it was called.
      have key : ∀ s', Thread.Effects s s' → ((ofThread s).setMemory s').performAll k
          (if (s.tasks t).hasCompleted then [] else [.enqueue s.cur t]) =
            (((ofThread s).setMemory s').setMemory (s'.enqueue t), true) ∧
          (((ofThread s).setMemory s').setMemory (s'.enqueue t)).memory = s'.enqueue t := by
        intro s' heff
        have hst := heff.steady
        have hm : ((ofThread s).setMemory s').memory = s' := setMemory_memory hst.cur
        have hcur : (s'.enqueue t).cur = s'.cur := by
          unfold Thread.enqueue
          split_ifs <;> rfl
        have he := performAll_enqueue ((ofThread s).setMemory s') k s.cur t
        have hon : ((ofThread s).setMemory s').on s.cur = s' := by
          rw [on, hm, ← hst.cur]
        rw [hm, hon, hst.tasks] at he
        exact ⟨he, setMemory_memory (hcur.trans (congrArg Thread.cur hm).symm)⟩
      cases hb : (s.tasks t).borrowed with
      | false =>
        obtain ⟨he, hm⟩ := key s .refl
        rw [show (ofThread s).setMemory s = ofThread s from rfl] at he hm
        simp only [Bool.false_eq_true, if_false, List.nil_append, he, hm]
        exact ⟨rfl, rfl⟩
      | true =>
        have hon : (ofThread s).on s.cur = s := rfl
        have heff := Thread.epollWait_effects s k
        simp only [if_true, List.singleton_append, performAll, perform, hon]
        cases hk : s.epollWait k with
        | ok s' | err s' =>
          rw [hk] at heff
          obtain ⟨he, hm⟩ := key s' heff
          simp only [Outcome.ignoreErr, Outcome.memory, Outcome.panicked, Option.isNone_none, he, hm]
          exact ⟨rfl, rfl⟩
        | panic p s' =>
          rw [hk] at heff
          exact ⟨rfl, (setMemory_memory heff.steady.cur).symm⟩
    · rw [if_neg hsame, if_neg (show ¬ _ = (s.execs s.cur).pipeWr from hsame)]
      obtain ⟨hs, hok⟩ := performAll_writeTo s k (s.tasks t).pipeWr (some t)
      simp only [hs, hok]
      cases s.write (s.tasks t).pipeWr (some t) <;> exact ⟨rfl, rfl⟩
  | blockOn pipeWr b =>
    simp only [wake, blockOnWake, Thread.wake, Thread.blockOnWake, hmem]
    by_cases hsame : pipeWr = s.executor.pipeWr
    · rw [if_pos hsame, if_pos (show _ = (s.execs s.cur).pipeWr from hsame)]
      exact ⟨rfl, rfl⟩
    · rw [if_neg hsame, if_neg (show ¬ _ = (s.execs s.cur).pipeWr from hsame)]
      obtain ⟨hs, hok⟩ := performAll_writeTo s k pipeWr none
      simp only [hs, hok]
      cases s.write pipeWr none <;> exact ⟨rfl, rfl⟩
  | noop => exact ⟨rfl, rfl⟩
  | other j => exact ⟨rfl, rfl⟩

/-! ## Reachable processes -/

/-- A reachable process with a property. -/
lemma exists_reachable (actions : List (ProcessAction V)) (p : Process V → Bool)
    (hp : (Epox.exec step (fun _ _ => true) (start V 16) actions).any p = true) :
    ∃ P : Process V, Reachable step IsStart P ∧ p P = true :=
  ReachableUnder.exists_free_run _ ⟨16, by decide, rfl⟩ actions hp

end Process

end Epox

import Epox.Foundation.Accounts
import Epox.Process.Model
import Mathlib.Algebra.Order.Group.Multiset
import Mathlib.Tactic.Abel

/-!
# The weak references of wakers

A `Waker` of a task holds a weak reference to it, but no type says so: its data is a raw pointer
(`Weak::into_raw`), which the functions of the vtable and `epoll_wait` turn back into the `Weak`
(`weak_from_raw`) that they then either drop or forget again.  A wake on another thread writes such a
pointer to the pipe of the executor of the task, where `wake_from_pipe` reads it.

`Refs` is the memory of a process, as far as it concerns these pointers, together with the calls of these
functions that are in progress, on any threads; one step is one access of a call to the memory, so that the
calls proceed in any order.  Every weak reference has a number, by which the ghost fields `made`,
`released` and `lost` tell what has become of it; the memory itself only has the counts.

The references that a program gets from `Arc::clone` and gives up again are left to the environment, and so
are the calls of `epoll_wait`: the ones that a wake makes itself come between its other steps.
-/

namespace Epox

/-- A weak reference to a task that has been turned into a pointer. -/
structure Ref where
  id : ℕ
  task : TaskId
  deriving DecidableEq

/-- The functions that call `weak_from_raw`: those of the vtable, `epoll_wait` for a stored waker, and
`wake_from_pipe`. -/
inductive WakerFn
  | clone
  | wakeByVal
  | wakeByRef
  | drop
  | epollWait
  | wakeFromPipe
  deriving DecidableEq

/-- The function owns the pointer that it is called with; otherwise the waker that it borrows does. -/
def WakerFn.owns : WakerFn → Bool
  | .wakeByVal | .drop | .wakeFromPipe => true
  | .clone | .wakeByRef | .epollWait => false

/-- The function calls `task_waker::wake`. -/
def WakerFn.wakes : WakerFn → Bool
  | .wakeByVal | .wakeByRef => true
  | .clone | .drop | .epollWait | .wakeFromPipe => false

/-- Where a call is. -/
inductive CallStage
  /-- `weak_from_raw` comes next. -/
  | entered
  /-- It has rebuilt the `Weak`. -/
  | rebuilt
  /-- It has upgraded the `Weak`, and holds the `Arc`. -/
  | upgraded
  /-- It holds a further pointer to write to a pipe. -/
  | sending (ref : Ref)
  /-- The `Arc` is dropped next, and then a waker is returned, if any. -/
  | holding (waker : Option Ref)
  /-- It is about to drop or to forget the `Weak` and to return. -/
  | returning (waker : Option Ref)
  deriving DecidableEq

/-- The pointers that a call has made itself. -/
def CallStage.refs : CallStage → List Ref
  | .entered | .rebuilt | .upgraded => []
  | .sending r => [r]
  | .holding w | .returning w => w.toList

/-- The call holds an `Arc`. -/
def CallStage.holdsArc : CallStage → Bool
  | .upgraded | .sending _ | .holding _ => true
  | .entered | .rebuilt | .returning _ => false

/-- A call in progress on a thread whose executor is `exec`. -/
structure Call where
  fn : WakerFn
  ptr : Ref
  exec : ExecId
  stage : CallStage
  deriving DecidableEq

/-- The references that nobody but the call has. -/
def Call.owned (c : Call) : List Ref := (if c.fn.owns then [c.ptr] else []) ++ c.stage.refs

/-- The call has borrowed the waker. -/
def Call.borrows (c : Call) (r : Ref) : Bool := !c.fn.owns && c.ptr == r

/-- The executors and their pipes, and the tasks. -/
structure Layout where
  nExecs : ℕ
  /-- The number of `Executor::pipe_wr`. -/
  execPipe : ExecId → RawFd
  isOpen : ExecId → Bool
  /-- The open descriptors, as far as they can be written to. -/
  files : RawFd → Option File
  nTasks : ℕ
  home : TaskId → ExecId
  /-- `ExecutorTask::pipe_wr`. -/
  pipeWr : TaskId → RawFd

/-- The memory of a process, as far as it concerns the wakers of tasks. -/
structure Refs extends Layout where
  /-- The explicit weak references of the `Arc` of a task. -/
  weak : TaskId → ℕ
  strong : TaskId → ℕ
  /-- A `Weak` was rebuilt or dropped when there was no weak reference. -/
  corrupt : Bool
  /-- The task `Waker`s that exist and have not been passed by value to a call in progress. -/
  wakers : List Ref
  /-- The pointers in the pipes, in the order of the writes. -/
  pipes : List (ExecId × Option Ref)
  calls : List Call
  made : List Ref
  released : List Ref
  /-- The references whose pointers nobody will read. -/
  lost : List Ref

namespace Refs

variable {s s' : Refs}

/-- The memory before any executor is created. -/
def start : Refs where
  weak _ := 0
  strong _ := 0
  corrupt := false
  nExecs := 0
  execPipe _ := 0
  isOpen _ := false
  files _ := none
  nTasks := 0
  home _ := 0
  pipeWr _ := 0
  wakers := []
  pipes := []
  calls := []
  made := []
  released := []
  lost := []

/-! ## References -/

/-- The next reference to the task. -/
def next (s : Refs) (t : TaskId) : Ref := ⟨s.made.length, t⟩

/-- `Weak::clone` or `Arc::downgrade`, and `Weak::into_raw`. -/
def makeRef (s : Refs) (t : TaskId) : Refs :=
  { s with weak := Function.update s.weak t (s.weak t + 1), made := s.next t :: s.made }

/-- `weak_from_raw`. -/
def weakFromRaw (s : Refs) (r : Ref) : Refs := { s with corrupt := s.corrupt || s.weak r.task == 0 }

/-- The drop of a rebuilt `Weak`. -/
def dropWeak (s : Refs) (r : Ref) : Refs :=
  { s with
    corrupt := s.corrupt || s.weak r.task == 0
    weak := Function.update s.weak r.task (s.weak r.task - 1)
    released := r :: s.released }

/-- `Arc::clone`, or an upgrade. -/
def cloneArc (s : Refs) (t : TaskId) : Refs :=
  { s with strong := Function.update s.strong t (s.strong t + 1) }

/-- The drop of an `Arc`. -/
def dropArc (s : Refs) (t : TaskId) : Refs :=
  { s with strong := Function.update s.strong t (s.strong t - 1) }

/-- `enqueue` takes the `Arc` by value; a queue keeps it, or it is dropped. -/
def enqueue (s : Refs) (t : TaskId) (kept : Bool) : Refs := if kept then s else s.dropArc t

/-- The pointer will not be read. -/
def lose (s : Refs) (r : Ref) : Refs := { s with lost := r :: s.lost }

/-- `write` of a pointer to a descriptor; nothing happens on `EBADF`. -/
def write (s : Refs) (fd : RawFd) (r : Ref) : Refs :=
  match s.files fd with
  | some (.pipe x) => { s with pipes := s.pipes ++ [(x, some r)] }
  | some (.other _) | none => s.lose r

/-! ## Executors and tasks -/

/-- `Executor::new`, with the descriptor the kernel chose for its pipe. -/
def newExecutor (s : Refs) (pipeWr : RawFd) : Refs :=
  { s with
    nExecs := s.nExecs + 1
    execPipe := Function.update s.execPipe s.nExecs pipeWr
    isOpen := Function.update s.isOpen s.nExecs true
    files := Function.update s.files pipeWr (some (.pipe s.nExecs)) }

/-- An executor is dropped and its pipe closed. -/
def close (s : Refs) (x : ExecId) : Refs :=
  { s with
    isOpen := Function.update s.isOpen x false
    files := Function.update s.files (s.execPipe x) none
    pipes := s.pipes.filter (·.1 ≠ x)
    lost := (s.pipes.filter (·.1 = x)).filterMap Prod.snd ++ s.lost }

/-- `Executor::spawn`: the task has a waker of its own, which `task_waker::build` has made. -/
def spawn (s : Refs) (x : ExecId) : Refs :=
  let t := s.nTasks
  { s.makeRef t with
    nTasks := t + 1
    strong := Function.update s.strong t 1
    home := Function.update s.home t x
    pipeWr := Function.update s.pipeWr t (s.execPipe x)
    wakers := s.next t :: s.wakers }

/-! ## Calls -/

/-- A call goes on. -/
def setCall (s : Refs) (c : Call) (stage : CallStage) : Refs :=
  { s with calls := { c with stage := stage } :: s.calls.erase c }

/-- A call ends, and may return a waker. -/
def endCall (s : Refs) (c : Call) (waker : Option Ref) : Refs :=
  { s with calls := s.calls.erase c, wakers := waker.toList ++ s.wakers }

/-- The last step of a call: the `Weak` is dropped, or forgotten (`Weak::into_raw`). -/
def finish (s : Refs) (c : Call) (waker : Option Ref) : Refs :=
  if c.fn.owns then (s.endCall c waker).dropWeak c.ptr else s.endCall c waker

/-- The next step of a call; `kept` answers whether a queue keeps a reference that is enqueued. -/
def advance (s : Refs) (c : Call) (kept : Bool) : Option Refs :=
  let t := c.ptr.task
  match c.stage with
  | .entered => some ((s.weakFromRaw c.ptr).setCall c .rebuilt)
  | .rebuilt =>
    if c.fn = .drop then some (s.finish c none)
    else if s.strong t = 0 then some (s.setCall c (.returning none))
    else some ((s.cloneArc t).setCall c .upgraded)
  | .upgraded =>
    match c.fn with
    | .clone => some ((s.makeRef t).setCall c (.holding (some (s.next t))))
    | .wakeByVal | .wakeByRef =>
      if s.pipeWr t = s.execPipe c.exec then
        some ((s.enqueue t kept).setCall c (.returning none))
      else
        some ((s.makeRef t).setCall c (.sending (s.next t)))
    | .epollWait | .wakeFromPipe => some ((s.enqueue t kept).setCall c (.returning none))
    | .drop => none
  | .sending r => some ((s.setCall c (.holding none)).write (s.pipeWr t) r)
  | .holding w => some ((s.dropArc t).setCall c (.returning w))
  | .returning w => some (s.finish c w)

/-- A wake panics, because the executor of the thread is in use or gone or because a pipe is full: the
`Arc` and the `Weak` are dropped, even if the waker has only been borrowed, and a pointer that was to be
written is lost. -/
def unwind (s : Refs) (c : Call) : Refs :=
  { ((s.endCall c none).dropArc c.ptr.task).dropWeak c.ptr with lost := c.stage.refs ++ s.lost }

/-! ## Steps -/

/-- What happens next. -/
inductive Action
  | newExecutor (pipeWr : RawFd)
  | close (x : ExecId)
  | openFile (fd : RawFd) (j : ℕ)
  | closeFile (fd : RawFd)
  | spawn (x : ExecId)
  /-- `Arc::clone`, outside the calls. -/
  | retain (t : TaskId)
  /-- The drop of an `Arc`, outside the calls. -/
  | release (t : TaskId)
  /-- A thread whose executor is `x` calls the function for a waker. -/
  | call (fn : WakerFn) (r : Ref) (x : ExecId)
  /-- The waker of `block_on` writes a null pointer. -/
  | wakeBlockOn (fd : RawFd)
  /-- `wake_from_pipe` reads from the pipe of `x`. -/
  | read (x : ExecId)
  | advance (c : Call) (kept : Bool)
  | unwind (c : Call)

/-- The number of `Arc`s that calls hold. -/
def arcs (s : Refs) (t : TaskId) : ℕ := s.calls.countP fun c => c.ptr.task = t ∧ c.stage.holdsArc

/-- One step. -/
def step (s : Refs) : Action → Option Refs
  | .newExecutor pipeWr => if s.files pipeWr = none then some (s.newExecutor pipeWr) else none
  | .close x => if s.isOpen x then some (s.close x) else none
  | .openFile fd j =>
    if s.files fd = none then
      some { s with files := Function.update s.files fd (some (.other j)) }
    else
      none
  | .closeFile fd =>
    match s.files fd with
    | some (.other _) => some { s with files := Function.update s.files fd none }
    | _ => none
  | .spawn x => if s.isOpen x then some (s.spawn x) else none
  | .retain t => if s.strong t = 0 then none else some (s.cloneArc t)
  | .release t => if s.arcs t < s.strong t then some (s.dropArc t) else none
  | .call fn r x =>
    if fn ≠ .wakeFromPipe ∧ r ∈ s.wakers ∧ s.isOpen x then
      if fn.owns then
        -- A waker that is borrowed is not passed by value.
        if s.calls.any (·.borrows r) then
          none
        else
          some { s with wakers := s.wakers.erase r, calls := ⟨fn, r, x, .entered⟩ :: s.calls }
      else
        some { s with calls := ⟨fn, r, x, .entered⟩ :: s.calls }
    else
      none
  | .wakeBlockOn fd =>
    match s.files fd with
    | some (.pipe x) => some { s with pipes := s.pipes ++ [(x, none)] }
    | _ => some s
  | .read x =>
    match s.pipes.find? (·.1 = x) with
    | some (y, some r) =>
      some { s with
        pipes := s.pipes.erase (y, some r), calls := ⟨.wakeFromPipe, r, x, .entered⟩ :: s.calls }
    | some (y, none) => some { s with pipes := s.pipes.erase (y, none) }
    | none => none
  | .advance c kept => if c ∈ s.calls then s.advance c kept else none
  | .unwind c =>
    match c.stage with
    | .upgraded | .sending _ => if c ∈ s.calls ∧ c.fn.wakes then some (s.unwind c) else none
    | _ => none

/-- No executor has been created yet. -/
def IsStart (s : Refs) : Prop := s = start

/-- The memory before any executor is created is a start. -/
lemma isStart_start : IsStart start := rfl

/-- No wake panics. -/
def WakesReturn (_ : Refs) : Action → Prop
  | .unwind _ => False
  | _ => True

instance (s : Refs) : DecidablePred s.WakesReturn
  | .unwind _ => .isFalse id
  | .newExecutor _ | .close _ | .openFile _ _ | .closeFile _ | .spawn _ | .retain _ | .release _
  | .call _ _ _ | .wakeBlockOn _ | .read _ | .advance _ _ => .isTrue trivial

/-! ## Who holds the references -/

/-- The references that have not been released. -/
def held (s : Refs) : Multiset Ref :=
  (s.wakers : Multiset Ref) + (s.pipes.filterMap Prod.snd : List Ref) + (s.calls.flatMap Call.owned : List Ref) +
    (s.lost : List Ref)

/-- The references of the calls in progress. -/
lemma owned_erase {l : List Call} {c : Call} (hc : c ∈ l) : ((l.flatMap Call.owned : List Ref) : Multiset Ref) =
    (c.owned : Multiset Ref) + ((l.erase c).flatMap Call.owned : List Ref) := by
  rw [Multiset.coe_add, ← List.flatMap_cons]
  exact Multiset.coe_eq_coe.mpr ((List.perm_cons_erase hc).flatMap_right _)

/-- The pointers in the pipes. -/
lemma pointers_erase {l : List (ExecId × Option Ref)} {e : ExecId × Option Ref} (he : e ∈ l) :
    ((l.filterMap Prod.snd : List Ref) : Multiset Ref) =
      (e.2.toList : Multiset Ref) + ((l.erase e).filterMap Prod.snd : List Ref) := by
  have hperm := (List.perm_cons_erase he).filterMap Prod.snd
  rw [Multiset.coe_add]
  refine Multiset.coe_eq_coe.mpr (hperm.trans (.of_eq ?_))
  cases h : e.2 <;> simp [h]

/-- A call goes on: it has the pointers of its new stage. -/
lemma held_setCall {c : Call} (hc : c ∈ s.calls) (stage : CallStage) :
    (s.setCall c stage).held + (c.stage.refs : Multiset Ref) = s.held + (stage.refs : Multiset Ref) := by
  simp only [held, setCall, owned_erase hc, List.flatMap_cons, Call.owned, ← Multiset.coe_add]
  abel

/-- A call ends: the waker that it returns is alive. -/
lemma held_endCall {c : Call} (hc : c ∈ s.calls) {waker : Option Ref} (hw : c.stage.refs = waker.toList) :
    (if c.fn.owns then [c.ptr] else [] : List Ref) + (s.endCall c waker).held = s.held := by
  simp only [held, endCall, owned_erase hc, Call.owned, hw, ← Multiset.coe_add]
  abel

/-! ## The accounts -/

/-- The accounts are balanced and the memory agrees with them: a task has as many weak references as are
held, and a waker that a call has borrowed exists. -/
structure Sound (s : Refs) : Prop where
  balanced : Balanced (s.made : Multiset Ref) s.held s.released
  number : ∀ r ∈ s.made, r.id < s.made.length
  weak : ∀ t, s.weak t = s.held.countP (·.task = t)
  corrupt : s.corrupt = false
  borrowed : ∀ c ∈ s.calls, c.fn.owns = false → c.ptr ∈ s.wakers

/-- A task of which a reference is held has a weak reference. -/
lemma Sound.weak_ne_zero (h : s.Sound) {r : Ref} (hr : r ∈ s.held) : s.weak r.task ≠ 0 := by
  have hpos : 0 < s.held.countP (·.task = r.task) := Multiset.countP_pos.mpr ⟨r, hr, rfl⟩
  exact h.weak r.task ▸ hpos.ne'

/-- The pointer of a call is that of a reference that is held. -/
lemma Sound.ptr_mem (h : s.Sound) {c : Call} (hc : c ∈ s.calls) : c.ptr ∈ s.held := by
  simp only [held, Multiset.mem_add, Multiset.mem_coe, List.mem_flatMap]
  cases howns : c.fn.owns with
  | true => exact .inl (.inr ⟨c, hc, by simp [Call.owned, howns]⟩)
  | false => exact .inl (.inl (.inl (h.borrowed c hc howns)))

/-- Nothing is made or released. -/
lemma Sound.keep (h : s.Sound) (hmade : s'.made = s.made) (hreleased : s'.released = s.released)
    (hweak : s'.weak = s.weak) (hcorrupt : s'.corrupt = s.corrupt) (hheld : s'.held = s.held)
    (hborrowed : ∀ c ∈ s'.calls, c.fn.owns = false → c.ptr ∈ s'.wakers) : s'.Sound where
  balanced := by rw [hmade, hreleased, hheld]; exact h.balanced
  number := by rw [hmade]; exact h.number
  weak := by rw [hweak, hheld]; exact h.weak
  corrupt := hcorrupt.trans h.corrupt
  borrowed := hborrowed

/-- A reference is made. -/
lemma Sound.make (h : s.Sound) {t : TaskId} (hmade : s'.made = s.next t :: s.made)
    (hreleased : s'.released = s.released) (hweak : s'.weak = Function.update s.weak t (s.weak t + 1))
    (hcorrupt : s'.corrupt = s.corrupt) (hheld : s'.held = s.next t ::ₘ s.held)
    (hborrowed : ∀ c ∈ s'.calls, c.fn.owns = false → c.ptr ∈ s'.wakers) : s'.Sound where
  balanced := by
    rw [hmade, hreleased, hheld, ← Multiset.cons_coe]
    exact h.balanced.make fun hm => (h.number _ (Multiset.mem_coe.mp hm)).ne rfl
  number r hr := by
    rw [hmade] at hr ⊢
    rcases List.mem_cons.mp hr with rfl | hr
    · simp [next]
    · exact (h.number r hr).trans (Nat.lt_succ_self _)
  weak u := by
    rw [hweak, hheld, Multiset.countP_cons, ← h.weak]
    by_cases hu : u = t
    · simp [hu, next]
    · simp [hu, next, Ne.symm hu]
  corrupt := hcorrupt.trans h.corrupt
  borrowed := hborrowed

/-- A reference is released. -/
lemma Sound.release (h : s.Sound) {r : Ref} (hmade : s'.made = s.made)
    (hreleased : s'.released = r :: s.released)
    (hweak : s'.weak = Function.update s.weak r.task (s.weak r.task - 1))
    (hcorrupt : s'.corrupt = (s.corrupt || s.weak r.task == 0)) (hheld : r ::ₘ s'.held = s.held)
    (hborrowed : ∀ c ∈ s'.calls, c.fn.owns = false → c.ptr ∈ s'.wakers) : s'.Sound where
  balanced := by
    rw [hmade, hreleased, ← Multiset.cons_coe]
    exact Balanced.release (hheld ▸ h.balanced)
  number := by rw [hmade]; exact h.number
  weak u := by
    have hcount := h.weak u
    rw [← hheld, Multiset.countP_cons] at hcount
    rw [hweak]
    by_cases hu : u = r.task
    · subst hu
      rw [Function.update_self, hcount, if_pos rfl, Nat.add_sub_cancel]
    · simpa [hu, Ne.symm hu] using hcount
  corrupt := by simp [hcorrupt, h.corrupt, h.weak_ne_zero (hheld ▸ Multiset.mem_cons_self _ _)]
  borrowed := hborrowed

/-- The wakers that are borrowed are the same after a call has gone on. -/
lemma Sound.borrowed_setCall (h : s.Sound) {c : Call} (hc : c ∈ s.calls) (stage : CallStage) :
    ∀ d ∈ (s.setCall c stage).calls, d.fn.owns = false → d.ptr ∈ s.wakers := by
  intro d hd howns
  rcases List.mem_cons.mp hd with rfl | hd
  · exact h.borrowed c hc howns
  · exact h.borrowed d (List.mem_of_mem_erase hd) howns

/-- The last step of a call. -/
lemma Sound.finish (h : s.Sound) {c : Call} (hc : c ∈ s.calls) {waker : Option Ref}
    (hw : c.stage.refs = waker.toList) : (s.finish c waker).Sound := by
  have hheld := held_endCall hc hw
  have hborrowed : ∀ d ∈ s.calls.erase c, d.fn.owns = false → d.ptr ∈ waker.toList ++ s.wakers :=
    fun d hd howns =>
      List.mem_append_right _ (h.borrowed d (List.mem_of_mem_erase hd) howns)
  unfold Refs.finish
  split_ifs at hheld ⊢
  · exact h.release rfl rfl rfl rfl hheld hborrowed
  · exact h.keep rfl rfl rfl rfl (by simpa using hheld) hborrowed

/-- A reference that a queue does not keep is the business of the strong count. -/
lemma enqueue_eq (s : Refs) (t : TaskId) (kept : Bool) :
    ∃ strong, s.enqueue t kept = { s with strong := strong } := by
  unfold enqueue
  split_ifs
  · exact ⟨s.strong, rfl⟩
  · exact ⟨_, rfl⟩

/-- A pointer that has been written is in a pipe, or lost. -/
lemma held_write (s : Refs) (fd : RawFd) (r : Ref) : (s.write fd r).held = r ::ₘ s.held := by
  unfold write
  split
  · rename_i x _
    have hlist : (s.pipes ++ [(x, some r)]).filterMap Prod.snd = s.pipes.filterMap Prod.snd ++ [r] := by
      simp
    simp only [held, hlist, ← Multiset.coe_add, ← Multiset.singleton_add, Multiset.coe_singleton]
    abel
  · simp only [held, lose, ← Multiset.cons_coe, ← Multiset.singleton_add]
    abel
  · simp only [held, lose, ← Multiset.cons_coe, ← Multiset.singleton_add]
    abel

/-- What else a write does not change. -/
lemma write_frame (s : Refs) (fd : RawFd) (r : Ref) :
    (s.write fd r).made = s.made ∧ (s.write fd r).released = s.released ∧
      (s.write fd r).weak = s.weak ∧ (s.write fd r).corrupt = s.corrupt ∧
        (s.write fd r).calls = s.calls ∧ (s.write fd r).wakers = s.wakers := by
  unfold write
  split <;> exact ⟨rfl, rfl, rfl, rfl, rfl, rfl⟩

/-- The references that are held are the same after the call has gone on without making one. -/
lemma held_setCall_of_refs {c : Call} (hc : c ∈ s.calls) {stage : CallStage}
    (hrefs : stage.refs = c.stage.refs) : (s.setCall c stage).held = s.held := by
  have hheld := held_setCall hc stage
  rwa [hrefs, add_left_inj] at hheld

/-- A call goes on and makes a reference. -/
lemma Sound.makeRef (h : s.Sound) {c : Call} (hc : c ∈ s.calls) (t : TaskId) {stage : CallStage}
    (hnone : c.stage.refs = []) (hrefs : stage.refs = [s.next t]) :
    ((s.makeRef t).setCall c stage).Sound := by
  refine h.make (t := t) rfl rfl rfl rfl ?_ (h.borrowed_setCall hc stage)
  have hheld := held_setCall (s := s.makeRef t) hc stage
  rw [hnone, hrefs, Multiset.coe_nil, add_zero, Multiset.coe_singleton, add_comm] at hheld
  exact hheld

/-- Every step of a call keeps the accounts. -/
lemma Sound.advance (h : s.Sound) {c : Call} (hc : c ∈ s.calls) {kept : Bool}
    (hs : s.advance c kept = some s') : s'.Sound := by
  have hweak : (s.weak c.ptr.task == 0) = false := by simpa using h.weak_ne_zero (h.ptr_mem hc)
  have hset : ∀ stage, stage.refs = c.stage.refs → ∀ weak strong corrupt, weak = s.weak →
      corrupt = s.corrupt →
        ({ s with weak := weak, strong := strong, corrupt := corrupt }.setCall c stage).Sound := by
    rintro stage hrefs _ strong _ rfl rfl
    exact h.keep rfl rfl rfl rfl (held_setCall_of_refs (s := { s with strong := strong }) hc hrefs)
      (h.borrowed_setCall hc stage)
  unfold Refs.advance at hs
  cases hstage : c.stage with
  | entered =>
    simp only [hstage] at hs
    obtain rfl := Option.some.inj hs
    exact hset _ (by rw [hstage]; rfl) _ _ _ rfl (by rw [hweak, Bool.or_false])
  | rebuilt =>
    simp only [hstage] at hs
    split_ifs at hs
    · obtain rfl := Option.some.inj hs
      exact h.finish hc (by rw [hstage]; rfl)
    · obtain rfl := Option.some.inj hs
      exact hset _ (by rw [hstage]; rfl) _ _ _ rfl rfl
    · obtain rfl := Option.some.inj hs
      exact hset _ (by rw [hstage]; rfl) _ _ _ rfl rfl
  | upgraded =>
    have henqueue : ((s.enqueue c.ptr.task kept).setCall c (.returning none)).Sound := by
      obtain ⟨strong, he⟩ := s.enqueue_eq c.ptr.task kept
      rw [he]
      exact hset _ (by rw [hstage]; rfl) _ _ _ rfl rfl
    simp only [hstage] at hs
    split at hs
    · obtain rfl := Option.some.inj hs
      exact h.makeRef hc _ (by rw [hstage]; rfl) rfl
    · split_ifs at hs
      · exact Option.some.inj hs ▸ henqueue
      · obtain rfl := Option.some.inj hs
        exact h.makeRef hc _ (by rw [hstage]; rfl) rfl
    · split_ifs at hs
      · exact Option.some.inj hs ▸ henqueue
      · obtain rfl := Option.some.inj hs
        exact h.makeRef hc _ (by rw [hstage]; rfl) rfl
    · exact Option.some.inj hs ▸ henqueue
    · exact Option.some.inj hs ▸ henqueue
    · simp at hs
  | sending r =>
    simp only [hstage] at hs
    obtain rfl := Option.some.inj hs
    obtain ⟨hmade, hreleased, hw, hcorrupt, hcalls, hwakers⟩ :=
      (s.setCall c (.holding none)).write_frame (s.pipeWr c.ptr.task) r
    refine h.keep hmade hreleased hw hcorrupt ?_ ?_
    · have hheld := held_setCall hc (.holding none)
      rw [hstage] at hheld
      rw [held_write, ← Multiset.singleton_add, add_comm]
      simpa [CallStage.refs] using hheld
    · rw [hcalls, hwakers]
      exact h.borrowed_setCall hc _
  | holding w =>
    simp only [hstage] at hs
    obtain rfl := Option.some.inj hs
    exact hset _ (by rw [hstage]; rfl) _ _ _ rfl rfl
  | returning w =>
    simp only [hstage] at hs
    obtain rfl := Option.some.inj hs
    exact h.finish hc (by rw [hstage]; rfl)

/-- A closed pipe loses the pointers in it. -/
lemma held_close (s : Refs) (x : ExecId) : (s.close x).held = s.held := by
  have hperm := (List.filter_append_perm (fun e : ExecId × Option Ref => decide (e.1 = x)) s.pipes).filterMap
    Prod.snd
  rw [List.filterMap_append, ← Multiset.coe_eq_coe, ← Multiset.coe_add] at hperm
  simp only [held, close, ← hperm, ← Multiset.coe_add, ne_eq, decide_not]
  abel

/-- Every step in which no wake panics keeps the accounts. -/
lemma Sound.step (h : s.Sound) {a : Action} (hC : s.WakesReturn a) (hs : s.step a = some s') :
    s'.Sound := by
  cases a with
  | newExecutor pipeWr =>
    simp only [Refs.step] at hs
    split_ifs at hs
    exact Option.some.inj hs ▸ h.keep rfl rfl rfl rfl rfl h.borrowed
  | close x =>
    simp only [Refs.step] at hs
    split_ifs at hs
    exact Option.some.inj hs ▸ h.keep rfl rfl rfl rfl (held_close s x) h.borrowed
  | openFile fd j =>
    simp only [Refs.step] at hs
    split_ifs at hs
    exact Option.some.inj hs ▸ h.keep rfl rfl rfl rfl rfl h.borrowed
  | closeFile fd =>
    simp only [Refs.step] at hs
    split at hs
    · exact Option.some.inj hs ▸ h.keep rfl rfl rfl rfl rfl h.borrowed
    · simp at hs
  | spawn x =>
    simp only [Refs.step] at hs
    split_ifs at hs
    obtain rfl := Option.some.inj hs
    refine h.make rfl rfl rfl rfl ?_ fun c hc howns => List.mem_cons_of_mem _ (h.borrowed c hc howns)
    simp only [held, Refs.spawn, Refs.makeRef, ← Multiset.cons_coe, ← Multiset.singleton_add]
    abel
  | retain t =>
    simp only [Refs.step] at hs
    split_ifs at hs
    exact Option.some.inj hs ▸ h.keep rfl rfl rfl rfl rfl h.borrowed
  | release t =>
    simp only [Refs.step] at hs
    split_ifs at hs
    exact Option.some.inj hs ▸ h.keep rfl rfl rfl rfl rfl h.borrowed
  | call fn r x =>
    simp only [Refs.step] at hs
    split_ifs at hs with hcall howns hborrow
    · -- The waker is the call's from now on, and no other call has borrowed it.
      obtain rfl := Option.some.inj hs
      refine h.keep rfl rfl rfl rfl ?_ fun c hc hc' => ?_
      · have hr : (r ::ₘ (s.wakers.erase r : Multiset Ref)) = s.wakers :=
          Multiset.coe_eq_coe.mpr (List.perm_cons_erase hcall.2.1).symm
        simp only [held, ← hr, List.flatMap_cons, Call.owned, howns, if_true, CallStage.refs,
          List.append_nil, ← Multiset.coe_add, Multiset.coe_singleton, ← Multiset.singleton_add]
        abel
      · rcases List.mem_cons.mp hc with rfl | hc
        · simp [howns] at hc'
        · have hne : c.ptr ≠ r := fun he => hborrow <| List.any_eq_true.mpr
            ⟨c, hc, by simp [Call.borrows, hc', he]⟩
          exact (List.mem_erase_of_ne hne).mpr (h.borrowed c hc hc')
    · obtain rfl := Option.some.inj hs
      refine h.keep rfl rfl rfl rfl ?_ fun c hc hc' => ?_
      · simp [held, Call.owned, howns, CallStage.refs]
      · rcases List.mem_cons.mp hc with rfl | hc
        · exact hcall.2.1
        · exact h.borrowed c hc hc'
  | wakeBlockOn fd =>
    simp only [Refs.step] at hs
    split at hs
    · obtain rfl := Option.some.inj hs
      exact h.keep rfl rfl rfl rfl (by simp [held]) h.borrowed
    · exact Option.some.inj hs ▸ h
  | read x =>
    simp only [Refs.step] at hs
    split at hs
    · rename_i y r hfind
      obtain rfl := Option.some.inj hs
      refine h.keep rfl rfl rfl rfl ?_ fun c hc hc' => ?_
      · simp only [held, pointers_erase (List.mem_of_find?_eq_some hfind), List.flatMap_cons, Call.owned,
          WakerFn.owns, if_true, CallStage.refs, List.append_nil, Option.toList_some, ← Multiset.coe_add]
        abel
      · rcases List.mem_cons.mp hc with rfl | hc
        · simp [WakerFn.owns] at hc'
        · exact h.borrowed c hc hc'
    · rename_i y hfind
      obtain rfl := Option.some.inj hs
      refine h.keep rfl rfl rfl rfl ?_ h.borrowed
      simp [held, pointers_erase (List.mem_of_find?_eq_some hfind)]
    · simp at hs
  | advance c kept =>
    simp only [Refs.step] at hs
    split_ifs at hs with hc
    exact h.advance hc hs
  | unwind c => exact hC.elim

/-- The accounts of a run in which no wake panics. -/
lemma sound_of_reachable (h : ReachableUnder step IsStart WakesReturn s) : s.Sound := by
  refine h.invariant ?_ fun _ _ _ _ ih hC hs => ih.step hC hs
  rintro s rfl
  exact ⟨balanced_zero, nofun, fun _ => rfl, rfl, nofun⟩

end Refs

end Epox

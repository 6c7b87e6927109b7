import Epox.Process.Model

/-!
# Descriptor numbers and their executors

Tasks, wakers and threads know an executor by the number of its pipe.  While the pipe is open the number
refers to it and to nothing else (`Process.Wf`), in every reachable process; afterwards the kernel may give
it to another file.
-/

namespace Epox

namespace Thread

variable {V : Type} {s s' : Thread V}

/-! ## What identifies executors -/

/-- What identifies the executors and the wakers built for them is as before. -/
structure SameNames (s s' : Thread V) : Prop where
  pipeWr : ∀ x, (s'.execs x).pipeWr = (s.execs x).pipeWr
  isOpen : ∀ x, (s'.execs x).isOpen = (s.execs x).isOpen
  nTasks : s'.nTasks = s.nTasks
  taskExec : ∀ t, (s'.tasks t).exec = (s.tasks t).exec
  taskPipe : ∀ t, (s'.tasks t).pipeWr = (s.tasks t).pipeWr
  nBlockOns : s'.nBlockOns = s.nBlockOns
  blockOnPipe : s'.blockOnPipe = s.blockOnPipe

/-- Nothing changes when nothing is done. -/
lemma SameNames.refl (s : Thread V) : SameNames s s := by
  constructor <;> simp

/-- Two changes in a row. -/
lemma SameNames.trans {s₁ : Thread V} (h : SameNames s s₁) (h' : SameNames s₁ s') :
    SameNames s s' where
  pipeWr x := (h'.pipeWr x).trans (h.pipeWr x)
  isOpen x := (h'.isOpen x).trans (h.isOpen x)
  nTasks := h'.nTasks.trans h.nTasks
  taskExec t := (h'.taskExec t).trans (h.taskExec t)
  taskPipe t := (h'.taskPipe t).trans (h.taskPipe t)
  nBlockOns := h'.nBlockOns.trans h.nBlockOns
  blockOnPipe := h'.blockOnPipe.trans h.blockOnPipe

/-- Changing an executor but neither its pipe nor whether this is open. -/
lemma sameNames_setExec (s : Thread V) {x : ExecId} {e : Executor}
    (hpipe : e.pipeWr = (s.execs x).pipeWr) (hopen : e.isOpen = (s.execs x).isOpen) :
    SameNames s (s.setExec x e) := by
  refine ⟨fun y => ?_, fun y => ?_, rfl, fun _ => rfl, fun _ => rfl, rfl, rfl⟩ <;>
    by_cases hy : y = x <;> simp [setExec, hy, hpipe, hopen]

/-- Changing a task but neither its executor nor its pipe. -/
lemma sameNames_setTask (s : Thread V) {t : TaskId} {e : ExecutorTask V}
    (hexec : e.exec = (s.tasks t).exec) (hpipe : e.pipeWr = (s.tasks t).pipeWr) :
    SameNames s (s.setTask t e) := by
  refine ⟨fun _ => rfl, fun _ => rfl, rfl, fun u => ?_, fun u => ?_, rfl, rfl⟩ <;>
    by_cases hu : u = t <;> simp [setTask, hu, hpipe, hexec]

/-- Enqueueing a task identifies no executor anew. -/
lemma sameNames_enqueue (s : Thread V) (t : TaskId) : SameNames s (s.enqueue t) := by
  unfold enqueue
  split_ifs
  · exact .refl s
  · exact ⟨fun _ => rfl, fun _ => rfl, rfl, fun _ => rfl, fun _ => rfl, rfl, rfl⟩

/-- The effects of wakes identify no executor anew. -/
lemma Effects.sameNames (h : Effects s s') : SameNames s s' := by
  have hs := h.untouched
  exact ⟨hs.pipeWr, hs.isOpen, hs.nTasks,
    fun t => by rw [hs.tasks], fun t => by rw [hs.tasks], hs.nBlockOns, hs.blockOnPipe⟩

/-- Dropping an `Fd` identifies no executor anew. -/
lemma sameNames_fdDrop (s : Thread V) (f : FdId) : SameNames s (s.fdDrop f) := by
  have h : SameNames s (s.epollDel (s.fds f).raw) := sameNames_setExec s rfl rfl
  exact ⟨h.pipeWr, h.isOpen, h.nTasks, h.taskExec, h.taskPipe, h.nBlockOns, h.blockOnPipe⟩

/-- Creating an `Fd` identifies no executor anew. -/
lemma sameNames_fdNew (s : Thread V) (raw : RawFd) (events : EpollFlags) (fcntl ctl : Bool) :
    SameNames s (s.fdNew raw events fcntl ctl) := by
  have hadd : ∀ fd interest, SameNames s (s.addFd fd interest) := by
    intro fd interest
    have h := sameNames_setExec s (x := s.cur)
      (e := { s.executor with events := s.executor.events + 1, interest := interest }) rfl rfl
    exact ⟨h.pipeWr, h.isOpen, h.nTasks, h.taskExec, h.taskPipe, h.nBlockOns, h.blockOnPipe⟩
  rcases fdNew_cases s raw events fcntl ctl with h | ⟨fd, interest, -, -, h | h⟩ <;> rw [h]
  · exact .refl s
  · exact hadd fd interest
  · exact (hadd fd interest).trans (sameNames_fdDrop _ _)

end Thread

namespace Process

variable {V : Type} {P P' : Process V}

open Thread (SameNames sameNames_setExec sameNames_setTask sameNames_enqueue sameNames_fdDrop
  sameNames_fdNew Effects.sameNames epollWait_effects)

/-! ## Descriptors and their owners -/

/-- Every number by which an executor is known is that of its pipe, and while the pipe is open the number
refers to nothing else. -/
structure Wf (P : Process V) : Prop where
  files : ∀ fd x, P.files fd = some (.pipe x) ↔
    x < P.nExecs ∧ (P.memory.execs x).isOpen = true ∧ (P.memory.execs x).pipeWr = fd
  current : ∀ i x, P.current i = some x →
    x < P.nExecs ∧ (P.memory.execs x).isOpen = true ∧ P.owner x = i
  tasks : ∀ t < P.memory.nTasks, (P.memory.tasks t).exec < P.nExecs ∧
    (P.memory.tasks t).pipeWr = (P.memory.execs (P.memory.tasks t).exec).pipeWr
  blockOns : ∀ b < P.memory.nBlockOns, P.blockOnExec b < P.nExecs ∧
    P.memory.blockOnPipe b = (P.memory.execs (P.blockOnExec b)).pipeWr

/-- The descriptor of a known open pipe. -/
lemma Wf.files_pipeWr (h : P.Wf) {x : ExecId} (hx : x < P.nExecs)
    (hopen : (P.memory.execs x).isOpen = true) :
    P.files (P.memory.execs x).pipeWr = some (.pipe x) :=
  (h.files _ x).mpr ⟨hx, hopen, rfl⟩

/-- The number of an open pipe is that of the pipe of no other executor. -/
lemma Wf.eq_of_pipeWr_eq (h : P.Wf) {x y : ExecId} (hx : x < P.nExecs)
    (hxo : (P.memory.execs x).isOpen = true) (hy : y < P.nExecs)
    (hyo : (P.memory.execs y).isOpen = true)
    (heq : (P.memory.execs y).pipeWr = (P.memory.execs x).pipeWr) : y = x := by
  have hfy := h.files_pipeWr hy hyo
  rw [heq, h.files_pipeWr hx hxo] at hfy
  simpa using hfy.symm

/-- What changes only the memory, and identifies no executor anew, keeps the numbers right. -/
lemma Wf.setMemory (h : P.Wf) {s : Thread V} (hs : SameNames P.memory s) : (P.setMemory s).Wf where
  files fd x := by
    have hx := h.files fd x
    simpa only [Process.setMemory, hs.pipeWr, hs.isOpen] using hx
  current i x hx := by
    simpa only [Process.setMemory, hs.isOpen] using h.current i x hx
  tasks t ht := by
    simpa only [Process.setMemory, hs.taskExec, hs.taskPipe, hs.pipeWr] using
      h.tasks t (hs.nTasks ▸ ht)
  blockOns b hb := by
    simpa only [Process.setMemory, hs.blockOnPipe, hs.pipeWr] using h.blockOns b (hs.nBlockOns ▸ hb)

/-- The same for what happens on the thread of an executor. -/
lemma Wf.setMemory_on (h : P.Wf) {x : ExecId} {s : Thread V} (hs : SameNames (P.on x) s) :
    (P.setMemory s).Wf :=
  h.setMemory ⟨hs.pipeWr, hs.isOpen, hs.nTasks, hs.taskExec, hs.taskPipe, hs.nBlockOns, hs.blockOnPipe⟩

/-- A descriptor that is not that of a pipe keeps the numbers right, too. -/
lemma Wf.setFile (h : P.Wf) {fd : RawFd} {file : Option File} (hold : ∀ x, P.files fd ≠ some (.pipe x))
    (hnew : ∀ x, file ≠ some (.pipe x)) :
    ({ P with files := Function.update P.files fd file } : Process V).Wf := by
  refine ⟨fun fd' x => ?_, h.current, h.tasks, h.blockOns⟩
  rw [← h.files]
  by_cases hfd : fd' = fd
  · subst hfd
    simp [hnew x, hold x]
  · simp [hfd]

/-- A method of the executor of a thread that identifies no executor anew keeps the numbers right. -/
lemma Wf.exec (h : P.Wf) {i : ThreadId} {f : Thread V → Thread V}
    (hf : ∀ x, P.current i = some x → SameNames (P.on x) (f (P.on x)))
    (hs : P.exec i f = some P') : P'.Wf := by
  obtain ⟨x, hx, rfl⟩ := Option.map_eq_some_iff.mp hs
  exact h.setMemory_on (hf x hx)

/-- Creating an executor keeps the numbers right. -/
lemma Wf.newExecutor (h : P.Wf) {i : ThreadId} {pipeWr : RawFd} (hfree : P.files pipeWr = none) :
    (P.newExecutor i pipeWr).Wf := by
  have hexecs : ∀ x, x < P.nExecs → ((P.newExecutor i pipeWr).memory.execs x) = P.memory.execs x :=
    fun x hx => by simp [Process.newExecutor, Thread.setExec, hx.ne]
  have hnew : (P.newExecutor i pipeWr).memory.execs P.nExecs = Executor.new pipeWr := by
    simp [Process.newExecutor, Thread.setExec]
  have hn : (P.newExecutor i pipeWr).nExecs = P.nExecs + 1 := rfl
  refine ⟨fun fd x => ?_, fun j x hx => ?_, fun t ht => ?_, fun b hb => ?_⟩
  · have hfd : (P.newExecutor i pipeWr).files fd =
        if fd = pipeWr then some (.pipe P.nExecs) else P.files fd := by
      simp [Process.newExecutor, Function.update_apply]
    rw [hfd, hn]
    rcases lt_trichotomy x P.nExecs with hx | rfl | hx
    · rw [hexecs x hx]
      split_ifs with hf
      · subst hf
        have hne : P.files fd ≠ some (.pipe x) := by simp [hfree]
        rw [ne_eq, h.files] at hne
        simp only [Option.some.injEq, File.pipe.injEq, hx.ne', false_iff]
        exact fun hh => hne ⟨hx, hh.2⟩
      · rw [h.files]
        simp [hx, hx.trans (Nat.lt_succ_self _)]
    · rw [hnew]
      have hne : P.files fd ≠ some (.pipe P.nExecs) := fun hf =>
        ((h.files _ _).mp hf).1.false
      split_ifs with hf
      · simp [Executor.new, hf]
      · simp [Executor.new, hne, Ne.symm hf]
    · have hne : ¬ x < P.nExecs + 1 := not_lt.mpr hx
      have hold : P.files fd ≠ some (.pipe x) := fun hf =>
        hx.not_gt ((h.files _ _).mp hf).1
      split_ifs with hf
      · simp [hne, hx.ne]
      · simp [hne, hold]
  · by_cases hj : j = i
    · subst hj
      obtain rfl : P.nExecs = x := by simpa [Process.newExecutor] using hx
      rw [hnew, hn]
      exact ⟨Nat.lt_succ_self _, rfl, by simp [Process.newExecutor]⟩
    · have hx' : P.current j = some x := by simpa [Process.newExecutor, hj] using hx
      obtain ⟨hlt, hopen, howner⟩ := h.current j x hx'
      rw [hexecs x hlt, hn]
      exact ⟨hlt.trans (Nat.lt_succ_self _), hopen, by simp [Process.newExecutor, hlt.ne, howner]⟩
  · obtain ⟨hlt, hpipe⟩ := h.tasks t ht
    have he := hexecs _ hlt
    exact ⟨hlt.trans (Nat.lt_succ_self _), hpipe.trans (congrArg Executor.pipeWr he).symm⟩
  · obtain ⟨hlt, hpipe⟩ := h.blockOns b hb
    have he := hexecs _ hlt
    exact ⟨hlt.trans (Nat.lt_succ_self _), hpipe.trans (congrArg Executor.pipeWr he).symm⟩

/-- Closing the pipe of a replaced executor keeps the numbers right. -/
lemma Wf.closePipe (h : P.Wf) {x : ExecId} (hx : x < P.nExecs)
    (hopen : (P.memory.execs x).isOpen = true) (hr : P.replaced x) : (P.closePipe x).Wf := by
  have hpipe : ∀ y, ((P.closePipe x).memory.execs y).pipeWr = (P.memory.execs y).pipeWr := by
    intro y
    by_cases hy : y = x <;> simp [Process.closePipe, Thread.setExec, hy]
  have hopens : ∀ y, ((P.closePipe x).memory.execs y).isOpen =
      if y = x then false else (P.memory.execs y).isOpen := by
    intro y
    by_cases hy : y = x <;> simp [Process.closePipe, Thread.setExec, hy]
  refine ⟨fun fd y => ?_, fun i y hy => ?_, fun t ht => ?_, fun b hb => ?_⟩
  · have hfd : (P.closePipe x).files fd =
        if fd = (P.memory.execs x).pipeWr then none else P.files fd := by
      simp [Process.closePipe, Function.update_apply]
    have hn : (P.closePipe x).nExecs = P.nExecs := rfl
    have hown := h.files_pipeWr hx hopen
    rw [hfd, hpipe, hopens, hn]
    by_cases hyx : y = x
    · subst hyx
      rw [if_pos rfl]
      split_ifs with hf
      · simp
      · simp [h.files, Ne.symm hf]
    · rw [if_neg hyx]
      split_ifs with hf
      · subst hf
        have hne : P.files (P.memory.execs x).pipeWr ≠ some (.pipe y) := by simp [hown, Ne.symm hyx]
        rw [ne_eq, h.files] at hne
        simpa using hne
      · exact h.files fd y
  · obtain ⟨hlt, hyopen, howner⟩ := h.current i y hy
    have hyx : y ≠ x := by
      rintro rfl
      exact hr (howner ▸ hy)
    rw [hopens, if_neg hyx]
    exact ⟨hlt, hyopen, howner⟩
  · rw [hpipe]
    exact h.tasks t ht
  · rw [hpipe]
    exact h.blockOns b hb

/-- Calling `block_on` keeps the numbers right. -/
lemma Wf.blockOn (h : P.Wf) {x : ExecId} (hx : x < P.nExecs) : (P.blockOn x).Wf where
  files := h.files
  current := h.current
  tasks := h.tasks
  blockOns b hb := by
    by_cases hbn : b = P.memory.nBlockOns
    · simpa [Process.blockOn, hbn] using hx
    · have hlt : b < P.memory.nBlockOns := lt_of_le_of_ne (Nat.le_of_lt_succ hb) hbn
      simpa [Process.blockOn, hbn] using h.blockOns b hlt

/-- Spawning a task keeps the numbers right. -/
lemma Wf.spawn (h : P.Wf) {x : ExecId} (hx : x < P.nExecs) (priority : Priority) :
    (P.setMemory ((P.on x).spawn priority)).Wf := by
  rw [Thread.spawn, Thread.enqueue_of_not_completed (by simp)]
  refine ⟨h.files, h.current, fun t ht => ?_, h.blockOns⟩
  by_cases htn : t = P.memory.nTasks
  · simpa [Process.setMemory, on, Thread.executor, htn] using hx
  · have hlt : t < P.memory.nTasks := lt_of_le_of_ne (Nat.le_of_lt_succ ht) htn
    simpa [Process.setMemory, on, htn] using h.tasks t hlt

/-- Every operation keeps the numbers right. -/
lemma Wf.perform (h : P.Wf) (k : KernelAnswer) (op : Op) : (P.perform k op).1.Wf := by
  cases op with
  | wait x =>
    have heff := epollWait_effects (P.on x) k
    have hmem : (((P.on x).epollWait k).ignoreErr).memory = ((P.on x).epollWait k).memory := by
      cases (P.on x).epollWait k <;> rfl
    exact h.setMemory_on (hmem ▸ Effects.sameNames heff)
  | enqueue x t => exact h.setMemory_on (sameNames_enqueue (P.on x) t)
  | write f p =>
    cases f with
    | pipe x =>
      dsimp only [Process.perform]
      split_ifs
      · exact h.setMemory (sameNames_setExec _ rfl rfl)
      · exact h
    | other j => exact ⟨h.files, h.current, h.tasks, h.blockOns⟩

/-- Every sequence of operations keeps the numbers right. -/
lemma Wf.performAll (h : P.Wf) (k : KernelAnswer) (ops : List Op) : (P.performAll k ops).1.Wf := by
  induction ops generalizing P with
  | nil => exact h
  | cons op ops ih =>
    have hp := h.perform k op
    rw [Process.performAll]
    cases hop : P.perform k op with
    | mk P' ok =>
      rw [hop] at hp
      cases ok
      · exact hp
      · exact ih hp

/-- Every step keeps the numbers right. -/
lemma Wf.step (h : P.Wf) {a : ProcessAction V} (hs : P.step a = some P') : P'.Wf := by
  cases a with
  | start i pipeWr | replace i pipeWr =>
    simp only [Process.step] at hs
    split_ifs at hs with hfree
    exact Option.some.inj hs ▸ h.newExecutor hfree.2
  | exit i =>
    obtain rfl := Option.some.inj hs
    refine ⟨h.files, fun j x hx => ?_, h.tasks, h.blockOns⟩
    by_cases hj : j = i
    · simp [hj] at hx
    · exact h.current j x (by simpa [hj] using hx)
  | discard x t =>
    simp only [Process.step] at hs
    split_ifs at hs
    exact Option.some.inj hs ▸ h.setMemory
      ⟨fun _ => rfl, fun _ => rfl, rfl, fun _ => rfl, fun _ => rfl, rfl, rfl⟩
  | close x =>
    simp only [Process.step] at hs
    split_ifs at hs with hx
    exact Option.some.inj hs ▸ h.closePipe hx.1 hx.2.1 hx.2.2
  | openFile fd j =>
    simp only [Process.step] at hs
    split_ifs at hs with hfree
    exact Option.some.inj hs ▸ h.setFile (by simp [hfree]) (by simp)
  | closeFile fd =>
    simp only [Process.step] at hs
    split at hs
    · rename_i j hfile
      exact Option.some.inj hs ▸ h.setFile (by simp [hfile]) (by simp)
    · simp at hs
  | spawn i priority =>
    obtain ⟨x, hx, rfl⟩ := Option.map_eq_some_iff.mp hs
    exact h.spawn (h.current i x hx).1 priority
  | blockOn i =>
    obtain ⟨x, hx, rfl⟩ := Option.map_eq_some_iff.mp hs
    exact h.blockOn (h.current i x hx).1
  | wait i k =>
    obtain ⟨x, -, hs⟩ := Option.bind_eq_some_iff.mp hs
    split_ifs at hs
    exact Option.some.inj hs ▸ h.perform k _
  | poll i =>
    rw [Process.step] at hs
    refine h.exec (fun x _ => ?_) hs
    rw [Thread.highestPriorityRunnableTask_eq]
    cases (P.on x).front with
    | none => exact .refl _
    | some t =>
      dsimp only [Option.map_some]
      split_ifs
      · exact ⟨fun _ => rfl, fun _ => rfl, rfl, fun _ => rfl, fun _ => rfl, rfl, rfl⟩
      · have hn := sameNames_setTask (P.on x) (t := t)
          (e := { (P.on x).tasks t with borrowed := true }) rfl rfl
        exact ⟨hn.pipeWr, hn.isOpen, hn.nTasks, hn.taskExec, hn.taskPipe, hn.nBlockOns,
          hn.blockOnPipe⟩
  | pending i t =>
    simp only [Process.step] at hs
    split_ifs at hs
    refine h.exec (fun x _ => ?_) hs
    have hn := sameNames_setTask (P.on x) (t := t)
      (e := { (P.on x).tasks t with borrowed := false }) rfl rfl
    split_ifs <;> exact ⟨hn.pipeWr, hn.isOpen, hn.nTasks, hn.taskExec, hn.taskPipe, hn.nBlockOns,
      hn.blockOnPipe⟩
  | complete t =>
    simp only [Process.step] at hs
    split_ifs at hs
    have hn := sameNames_setTask P.memory (t := t)
      (e := { P.memory.tasks t with hasCompleted := true, borrowed := false }) rfl rfl
    exact Option.some.inj hs ▸ h.setMemory ⟨hn.pipeWr, hn.isOpen, hn.nTasks, hn.taskExec,
      hn.taskPipe, hn.nBlockOns, hn.blockOnPipe⟩
  | abort i t =>
    simp only [Process.step] at hs
    split_ifs at hs
    exact h.exec (fun x _ => ⟨fun _ => rfl, fun _ => rfl, rfl, fun _ => rfl, fun _ => rfl, rfl, rfl⟩)
      hs
  | dropHandle t => exact Option.some.inj hs ▸ h.setMemory (sameNames_setTask _ rfl rfl)
  | upgrade t =>
    simp only [Process.step] at hs
    split_ifs at hs
    · exact Option.some.inj hs ▸ h.setMemory
        ⟨fun _ => rfl, fun _ => rfl, rfl, fun _ => rfl, fun _ => rfl, rfl, rfl⟩
    · exact Option.some.inj hs ▸ h
  | release t =>
    exact Option.some.inj hs ▸ h.setMemory
      ⟨fun _ => rfl, fun _ => rfl, rfl, fun _ => rfl, fun _ => rfl, rfl, rfl⟩
  | fdNew i raw events fcntl ctl =>
    rw [Process.step] at hs
    exact h.exec (fun x _ => sameNames_fdNew _ _ _ _ _) hs
  | fdDrop i f =>
    rw [Process.step] at hs
    exact h.exec (fun x _ => sameNames_fdDrop _ _) hs
  | pollWith f ew borrowed =>
    exact Option.some.inj hs ▸ h.setMemory
      ⟨fun _ => rfl, fun _ => rfl, rfl, fun _ => rfl, fun _ => rfl, rfl, rfl⟩
  | wake i w k =>
    obtain ⟨x, -, hs⟩ := Option.bind_eq_some_iff.mp hs
    split_ifs at hs
    exact Option.some.inj hs ▸ h.performAll k _

/-- In every reachable process the numbers are right. -/
theorem wf_of_reachable (h : Reachable step IsStart P) : P.Wf := by
  refine h.invariant (P := Wf) ?_ fun _ _ _ _ hwf _ hs => hwf.step hs
  rintro P ⟨pipeCapacity, -, rfl⟩
  constructor <;> simp [start, Thread.start]

/-- The executor for which a waker was created. -/
def creator (P : Process V) : Waker → Option ExecId
  | .task t => some (P.memory.tasks t).exec
  | .blockOn _ b => some (P.blockOnExec b)
  | .noop => none
  | .other _ => none

end Process

end Epox

import Epox.Executor.Closures
import Epox.Executor.Queueing
import Epox.Executor.Readiness
import Epox.Executor.Yielding
import Epox.Process.Names

/-!
# Wakes stay with their executor

A wake through a waker of an executor should enqueue tasks of this executor only, in its own queues, write
to no pipe but its own and to no file, and do nothing once the executor has been destroyed.
`Process.Confined` says so of the processes before and after.  Whether it holds is a matter of descriptor
numbers: while the executor has its pipe, the number is its own; afterwards the wake is harmless only as
long as the number is not in use again.

`epoll_wait` wakes tasks as well, by the pointers in the pipe and by the wakers in the `Fd`s, without a look
at any number.  What it wakes has to be a task of its own executor.
-/

namespace Epox

namespace Thread

variable {V : Type} {s s' : Thread V}

/-! ## What `epoll_wait` delivers -/

/-- The event is not for a borrowed `Fd`. -/
def deliverable (s : Thread V) (ev : EpollEvent) : Bool := ev.key.all fun f => !(s.fds f).borrowed

/-- The events that `epoll_wait` delivers: those before the first one over which it panics. -/
def delivered (s : Thread V) (k : KernelAnswer) : List EpollEvent := k.list.takeWhile s.deliverable

/-- The event has no effect: the flags of its `Fd` are set already. -/
def Inert (s : Thread V) : EpollEvent → Prop
  | .pipe => False
  | .fd f e => (s.fds f).ew.events.contains e = true

/-- The effects of wakes borrow no `Fd`. -/
lemma Effects.deliverable (h : Effects s s') : s'.deliverable = s.deliverable := by
  funext ev
  cases ev with
  | pipe => rfl
  | fd f e => simp [Thread.deliverable, EpollEvent.key, h.fd_borrowed]

/-- The loop over the events goes through those that it delivers. -/
lemma wakeup_delivered {evs : List EpollEvent} (hnodup : (evs.map EpollEvent.key).Nodup)
    (hpipe : .pipe ∈ evs → s.executor.pipe ≠ []) :
    s.wakeup (evs.takeWhile s.deliverable) = .ok (s.wakeup evs).memory := by
  induction evs generalizing s with
  | nil => rfl
  | cons ev evs ih =>
    rw [List.map_cons, List.nodup_cons] at hnodup
    cases ev with
    | pipe =>
      have hnot : .pipe ∉ evs := fun hm => hnodup.1 (List.mem_map.mpr ⟨_, hm, rfl⟩)
      rw [List.takeWhile_cons_of_pos (by rfl)]
      simp only [wakeup]
      split
      · rename_i s₁ hs₁
        rw [← (wakeFromPipe_effects hs₁).deliverable]
        exact ih hnodup.2 fun hm => absurd hm hnot
      · rename_i hs₁
        exact absurd hs₁ (wakeFromPipe_ne_none (hpipe (List.mem_cons_self ..)))
    | fd f e =>
      cases hb : (s.fds f).borrowed with
      | false =>
        rw [List.takeWhile_cons_of_pos (by simp [deliverable, EpollEvent.key, hb])]
        simp only [wakeup]
        split
        · rename_i s₁ hs₁
          rw [← (deliver_effects hs₁).deliverable]
          refine ih hnodup.2 fun hm => ?_
          rw [deliver_executor hs₁]
          exact hpipe (List.mem_cons_of_mem _ hm)
        · rename_i hs₁
          simp only [deliver, hb, Bool.false_eq_true, if_false] at hs₁
          split_ifs at hs₁
          split at hs₁ <;> simp at hs₁
      | true =>
        rw [List.takeWhile_cons_of_neg (by simp [deliverable, EpollEvent.key, hb])]
        simp [wakeup, deliver, hb, Outcome.memory]

/-- `epoll_wait` goes through the events that it delivers. -/
lemma epollWait_delivered {k : KernelAnswer} (hk : s.answers k) :
    ((s.delivered k).map EpollEvent.key).Nodup ∧
      s.wakeup (s.delivered k) = .ok (s.epollWait k).memory := by
  cases k with
  | error e =>
    have hmem : (s.epollWait (.error e)).memory = s := by
      cases e <;> simp only [epollWait] <;> split <;> rfl
    rw [hmem]
    exact ⟨List.nodup_nil, rfl⟩
  | ok evs =>
    obtain ⟨hlen, hnodup, hreports, -⟩ := hk
    refine ⟨hnodup.sublist ((List.takeWhile_sublist _).map _), ?_⟩
    unfold epollWait
    split_ifs with h0
    · have hnil : evs = [] := by simpa [h0] using hlen
      subst hnil
      rfl
    · exact wakeup_delivered hnodup fun hm => hreports _ hm

/-- `epoll_wait` does not panic exactly if it delivers all events. -/
lemma epollWait_panicked_eq {k : KernelAnswer} (hk : s.answers k) :
    (s.epollWait k).panicked.isNone = k.list.all s.deliverable := by
  rw [Bool.eq_iff_iff, Option.isNone_iff_eq_none, epollWait_panicked_iff hk, List.all_eq_true]
  constructor
  · intro h ev hev
    cases ev with
    | pipe => rfl
    | fd f e => simp [deliverable, EpollEvent.key, h f e hev]
  · intro h f e hev
    simpa [deliverable, EpollEvent.key] using h _ hev

/-- An event without effect changes nothing. -/
lemma wakeup_inert {evs : List EpollEvent} (hinert : ∀ ev ∈ evs, s.Inert ev)
    (hfree : ∀ ev ∈ evs, s.deliverable ev = true) : s.wakeup evs = .ok s := by
  induction evs with
  | nil => rfl
  | cons ev evs ih =>
    have hrest := ih (fun ev' hev' => hinert ev' (List.mem_cons_of_mem _ hev'))
      fun ev' hev' => hfree ev' (List.mem_cons_of_mem _ hev')
    have hev := hinert ev (List.mem_cons_self ..)
    cases ev with
    | pipe => exact absurd hev id
    | fd f e =>
      have hb : (s.fds f).borrowed = false := by
        simpa [deliverable, EpollEvent.key] using hfree _ (List.mem_cons_self ..)
      have hc : (s.fds f).ew.events.contains e = true := hev
      simp [wakeup, deliver, hb, hc, hrest]

/-- `epoll_wait` changes nothing exactly if no event it delivers has an effect. -/
lemma epollWait_memory_eq_iff {k : KernelAnswer} (hk : s.answers k) :
    (s.epollWait k).memory = s ↔ ∀ ev ∈ s.delivered k, s.Inert ev := by
  obtain ⟨hnodup, hs⟩ := epollWait_delivered hk
  constructor
  · intro hmem ev hev
    rw [hmem] at hs
    cases ev with
    | pipe =>
      have hpipe := wakeup_pipe hnodup hs
      rw [if_pos hev] at hpipe
      have hne : s.executor.pipe ≠ [] := by
        cases k with
        | error e => simp [delivered, KernelAnswer.list] at hev
        | ok evs => exact hk.2.2.1 _ ((List.takeWhile_sublist _).subset hev)
      have hlen := congrArg List.length hpipe
      have hpos := List.length_pos_of_ne_nil hne
      simp only [List.length_tail] at hlen
      omega
    | fd f e =>
      have hflags := contains_flagsFor hev
      have hew := congrArg EpollWaker.events (wakeup_ew hs f)
      simp only [Inert, EpollFlags.contains_iff] at hflags ⊢
      intro i hi
      rw [hew]
      simp [EpollWaker.flag, hflags i hi]
  · intro hinert
    have hall := wakeup_inert hinert (List.all_eq_true.mp List.all_takeWhile)
    rw [hs] at hall
    exact Outcome.ok.inj hall

/-- The queues of other executors only lose tasks. -/
lemma Effects.sublist (h : Effects s s') {q : QueueId} (hq : q.1 ≠ s.cur) :
    (s'.queues.list q).Sublist (s.queues.list q) := by
  induction h with
  | refl => exact List.Sublist.refl _
  | @tail s₁ s₂ h₁ h₂ ih =>
    have hq₁ : q.1 ≠ s₁.cur := by rwa [Effects.steady h₁ |>.cur]
    have hpush : ∀ s₃ : Thread V, s₃.cur = s₁.cur → s₃.queues = s₁.queues → ∀ t,
        ((s₃.enqueue t).queues.list q).Sublist (s₁.queues.list q) := by
      intro s₃ hcur hqueues t
      unfold enqueue
      split_ifs
      · rw [hqueues]
      · have hne : q ≠ (s₃.cur, runq (s₃.tasks t).priority) := by
          rintro rfl
          exact hq₁ hcur
        change ((s₃.queues.push _ t).list q).Sublist _
        rw [Family.list_push_of_ne t hne, hqueues]
        exact List.erase_sublist ..
    refine List.Sublist.trans ?_ ih
    cases h₂ with
    | @receive t rest hpipe halive hc =>
      exact hpush (s₁.setExec s₁.cur { s₁.executor with pipe := rest }) rfl rfl t
    | enqueue halive hc => exact hpush _ rfl rfl _
    | read | setWaker | write | woken | blockOnWoken | otherWoken => exact List.Sublist.refl _

/-- A queue of another executor that holds none of the tasks woken is as before. -/
lemma Woke.list {l : List TaskId} (h : Woke s s' l) {q : QueueId} (hq : q.1 ≠ s.cur)
    (hnot : ∀ t ∈ l, s.Wakeable t → s.queues.home t ≠ some q) :
    s'.queues.list q = s.queues.list q := by
  refine (h.effects.sublist hq).eq_of_length_le ?_
  refine ((s.queues.nodup q).subperm fun t ht => ?_).length_le
  have hhome := (s.queues.mem_list q t).mp ht
  rw [s'.queues.mem_list, h.home, homeAfter, if_neg fun hl => hnot t hl.1 hl.2 hhome]
  exact hhome

/-- What has been recorded in between. -/
lemma fresh_of_log {l : List Event} (h : s'.log = l ++ s.log) : s.fresh s' = l := by
  simp [fresh, h]

end Thread

namespace Process

variable {V : Type} {P P' : Process V}

open Thread (Woke woke_enqueue fresh_of_log epollWait_delivered wakeup_woke epollWait_panicked_eq
  epollWait_memory_eq_iff epollWait_effects wakeup_keepsFd)

/-! ## Effects on one executor only -/

/-- What happens from `P` to `P'` is confined to the executor `y`, and does not happen once its pipe has
been closed. -/
structure Confined (P P' : Process V) (y : ExecId) : Prop where
  /-- The tasks that are enqueued are those of `y`, and go to its queues. -/
  enqueued : ∀ t, .enqueued t ∈ P.memory.fresh P'.memory →
    (P.memory.tasks t).exec = y ∧ ∃ q, P'.memory.queues.home t = some (y, q)
  /-- The queues of the other executors keep their tasks. -/
  queues : ∀ q, q.1 ≠ y → P'.memory.queues.list q = P.memory.queues.list q
  /-- The pipe and the interest set of no other executor change. -/
  execs : ∀ z, z ≠ y → P'.memory.execs z = P.memory.execs z
  /-- Only `Fd`s that are registered with `y` get events. -/
  fds : ∀ f, (∀ raw, (raw, f) ∉ (P.memory.execs y).interest) → P'.memory.fds f = P.memory.fds f
  /-- Nothing is written to other files. -/
  written : P'.written = P.written
  noop : (P.memory.execs y).isOpen = false → P' = P

/-- The task was created for the executor `x` and is in no queue of another one. -/
def Belongs (P : Process V) (x : ExecId) (t : TaskId) : Prop :=
  (P.memory.tasks t).exec = x ∧ ∀ q, P.memory.queues.home t = some q → q.1 = x

/-- The tasks that `epoll_wait` on the executor `x` wakes, by their pointers in its pipe or the wakers in
its `Fd`s, belong to it. -/
def WakesOwn (P : Process V) (x : ExecId) (k : KernelAnswer) : Prop :=
  ∀ t ∈ ((P.on x).delivered k).filterMap (P.on x).target, P.memory.Wakeable t → P.Belongs x t

/-- `epoll_wait` on the executor `x` has no effect. -/
def WaitsInertly (P : Process V) (x : ExecId) (k : KernelAnswer) : Prop :=
  ∀ ev ∈ (P.on x).delivered k, (P.on x).Inert ev

/-- A wake of the task on its own thread enqueues it: it has not completed, and `epoll_wait`, which comes
first if the task is being polled, does not panic. -/
def enqueues (P : Process V) (x : ExecId) (k : KernelAnswer) (t : TaskId) : Bool :=
  !(P.memory.tasks t).hasCompleted &&
    (!(P.memory.tasks t).borrowed || k.list.all (P.on x).deliverable)

/-- A write to the descriptor number of the executor `y` goes to its pipe or nowhere: the executor has its
pipe, the number is not in use again, or it is that of another pipe, which is full. -/
def Stays (P : Process V) (y : ExecId) (fd : RawFd) : Prop :=
  (P.memory.execs y).isOpen = true ∨
    match P.files fd with
    | none => True
    | some (.pipe z) => P.memory.pipeCapacity ≤ (P.memory.execs z).pipe.length
    | some (.other _) => False

/-- The descriptor number in a waker misleads no thread whose executor is `x`.  If it is that of the pipe of
`x`, this is the executor of the waker, which wakes only tasks that belong to it; or the executor of the
waker has lost its pipe, and there is nothing to do for `x`.  A `block_on` of that number is left alone. -/
def Harmless (P : Process V) (x : ExecId) (k : KernelAnswer) : Waker → Prop
  | .task t =>
    if (P.memory.tasks t).pipeWr = (P.memory.execs x).pipeWr then
      if (P.memory.execs (P.memory.tasks t).exec).isOpen then
        ((P.memory.tasks t).borrowed = true → P.WakesOwn x k) ∧
          (P.enqueues x k t = true → P.Belongs x t)
      else
        ((P.memory.tasks t).borrowed = true → P.WaitsInertly x k) ∧ P.enqueues x k t = false
    else
      P.Stays (P.memory.tasks t).exec (P.memory.tasks t).pipeWr
  | .blockOn pipeWr b =>
    pipeWr = (P.memory.execs x).pipeWr ∨ P.Stays (P.blockOnExec b) pipeWr
  | .noop => True
  | .other _ => True

/-- Nothing happens. -/
lemma Confined.refl (P : Process V) (y : ExecId) : P.Confined P y := by
  refine ⟨fun t ht => ?_, fun _ _ => rfl, fun _ _ => rfl, fun _ _ => rfl, rfl, fun _ => rfl⟩
  simp [Thread.fresh] at ht

/-- Once the pipe of the executor has been closed, nothing may happen. -/
lemma confined_iff_eq {y : ExecId} (hclosed : (P.memory.execs y).isOpen = false) :
    P.Confined P' y ↔ P' = P := by
  refine ⟨fun h => h.noop hclosed, ?_⟩
  rintro rfl
  exact .refl _ y

/-- A write to the descriptor of an executor is confined to it exactly if it goes to its pipe or nowhere. -/
lemma Wf.confined_writeTo (h : P.Wf) {y : ExecId} (hy : y < P.nExecs) {k : KernelAnswer}
    {p : Option TaskId} :
    P.Confined (P.performAll k (P.writeTo (P.memory.execs y).pipeWr p)).1 y ↔
      P.Stays y (P.memory.execs y).pipeWr := by
  -- A write to a pipe appends the pointer if there is room.
  have hwrite : ∀ z, (P.performAll k [.write (.pipe z) p]).1 =
      if (P.memory.execs z).pipe.length < P.memory.pipeCapacity then
        P.setMemory (P.memory.setExec z
          { P.memory.execs z with pipe := (P.memory.execs z).pipe ++ [p] })
      else P := by
    intro z
    by_cases hroom : (P.memory.execs z).pipe.length < P.memory.pipeCapacity <;>
      simp [Process.performAll, Process.perform, hroom]
  by_cases hopen : (P.memory.execs y).isOpen = true
  · refine iff_of_true ?_ (.inl hopen)
    rw [writeTo, h.files_pipeWr hy hopen, hwrite]
    split_ifs
    · refine ⟨fun t ht => ?_, fun _ _ => rfl, fun z hz => ?_, fun _ _ => rfl, rfl, fun hc => ?_⟩
      · simp [Thread.fresh, Process.setMemory, Thread.setExec] at ht
      · simp [Process.setMemory, Thread.setExec, hz]
      · simp [hopen] at hc
    · exact .refl P y
  · have hclosed : (P.memory.execs y).isOpen = false := by simpa using hopen
    rw [confined_iff_eq hclosed, Stays, or_iff_right hopen, writeTo]
    cases hfile : P.files (P.memory.execs y).pipeWr with
    | none => exact iff_of_true rfl trivial
    | some file =>
      cases file with
      | pipe z =>
        simp only [hwrite]
        split_ifs with hroom
        · refine iff_of_false (fun heq => ?_) hroom.not_ge
          have hpipe := congrArg (fun Q : Process V => ((Q.memory.execs z).pipe).length) heq
          simp [Process.setMemory, Thread.setExec] at hpipe
        · exact iff_of_true rfl (not_lt.mp hroom)
      | other j =>
        refine iff_of_false (fun heq => ?_) id
        have hwritten := congrArg (fun Q : Process V => Q.written.length) heq
        simp [Process.performAll, Process.perform] at hwritten

/-- Waking tasks on an executor is confined to it exactly if they belong to it. -/
lemma confined_of_woke {x : ExecId} (hopen : (P.memory.execs x).isOpen = true) {s : Thread V}
    {l : List TaskId} (hw : Woke (P.on x) s l)
    (hfds : ∀ f, (∀ raw, (raw, f) ∉ (P.memory.execs x).interest) → s.fds f = P.memory.fds f) :
    P.Confined (P.setMemory s) x ↔ ∀ t ∈ l, P.memory.Wakeable t → P.Belongs x t := by
  obtain ⟨m, hm, hmem⟩ := hw.log
  have hfresh : P.memory.fresh (P.setMemory s).memory = m := fresh_of_log hm
  constructor
  · intro hc t ht hwakeable
    have hhome : s.queues.home t = some (x, runq (P.memory.tasks t).priority) :=
      (hw.home t).trans (if_pos ⟨ht, hwakeable⟩)
    refine ⟨(hc.enqueued t (hfresh ▸ (hmem t).mpr ⟨ht, hwakeable⟩)).1, fun q hq => ?_⟩
    by_contra hne
    -- The task would have left the queue of another executor.
    have hold : t ∈ P.memory.queues.list q := (P.memory.queues.mem_list q t).mpr hq
    have hnew : t ∈ s.queues.list q := (hc.queues q hne).symm ▸ hold
    rw [s.queues.mem_list, hhome] at hnew
    exact hne (congrArg Prod.fst (Option.some.inj hnew)).symm
  · intro hown
    refine ⟨fun t ht => ?_, fun q hq => ?_, hw.execs, hfds, rfl, fun hc => ?_⟩
    · obtain ⟨hl, hwakeable⟩ := (hmem t).mp (hfresh ▸ ht)
      exact ⟨(hown t hl hwakeable).1, _, (hw.home t).trans (if_pos ⟨hl, hwakeable⟩)⟩
    · refine hw.list hq fun t ht hwakeable hhome => hq ?_
      exact (hown t ht hwakeable).2 q hhome
    · simp [hopen] at hc

/-- `epoll_wait` gives no event to an `Fd` that is not registered. -/
lemma fds_of_epollWait {x : ExecId} {k : KernelAnswer} (hk : (P.on x).answers k) {f : FdId}
    (hf : ∀ raw, (raw, f) ∉ (P.memory.execs x).interest) :
    ((P.on x).epollWait k).memory.fds f = P.memory.fds f := by
  refine (Thread.epollWait_keepsFd ?_ (P.on x)).1
  intro hreports
  cases k with
  | error e => exact hreports.elim
  | ok evs =>
    obtain ⟨e, he⟩ := hreports
    exact hf _ (hk.2.2.1 _ he).2

/-- `epoll_wait` on an executor is confined to it exactly if it wakes only tasks that belong to it. -/
lemma confined_wait_iff {x : ExecId} (hopen : (P.memory.execs x).isOpen = true) {k : KernelAnswer}
    (hk : (P.on x).answers k) : P.Confined (P.perform k (.wait x)).1 x ↔ P.WakesOwn x k := by
  obtain ⟨hnodup, hs⟩ := epollWait_delivered hk
  have hmem : (((P.on x).epollWait k).ignoreErr).memory = ((P.on x).epollWait k).memory := by
    cases (P.on x).epollWait k <;> rfl
  rw [perform, hmem]
  exact confined_of_woke hopen (wakeup_woke hnodup hs) fun f hf => fds_of_epollWait hk hf

/-! ## A wake on the thread of the task -/

/-- The memory after the `epoll_wait` of a task that wakes itself. -/
def checked (P : Process V) (x : ExecId) (k : KernelAnswer) (t : TaskId) : Thread V :=
  if (P.memory.tasks t).borrowed then ((P.on x).epollWait k).memory else P.on x

/-- The tasks that a wake of a task on its own thread wakes. -/
def aims (P : Process V) (x : ExecId) (k : KernelAnswer) (t : TaskId) : List TaskId :=
  (if (P.memory.tasks t).borrowed then ((P.on x).delivered k).filterMap (P.on x).target else []) ++
    if P.enqueues x k t then [t] else []

/-- What a thread sees of the memory that it has left. -/
lemma on_setMemory {s : Thread V} {x : ExecId} (h : s.cur = x) : (P.setMemory s).on x = s := by
  subst h
  rfl

/-- A wake that finds the number of the task to be that of its own executor enqueues the task. -/
lemma performAll_taskWake {x : ExecId} {t : TaskId} {k : KernelAnswer} (hk : (P.on x).answers k)
    (hsame : (P.memory.tasks t).pipeWr = (P.memory.execs x).pipeWr) :
    (P.performAll k (P.taskWake x t)).1 = P.setMemory
      (if P.enqueues x k t then (P.checked x k t).enqueue t else P.checked x k t) := by
  rw [taskWake, if_pos hsame]
  cases hb : (P.memory.tasks t).borrowed with
  | false =>
    have henqueue := performAll_enqueue P k x t
    simp only [Bool.false_eq_true, if_false, List.nil_append, henqueue, checked, hb, enqueues,
      Bool.not_false, Bool.true_or, Bool.and_true]
    cases hc : (P.memory.tasks t).hasCompleted with
    | false => rfl
    | true =>
      rw [Thread.enqueue_of_completed (show ((P.on x).tasks t).hasCompleted = true from hc)]
      rfl
  | true =>
    have hst := (epollWait_effects (P.on x) k).steady
    have hmem : (((P.on x).epollWait k).ignoreErr).memory = ((P.on x).epollWait k).memory := by
      cases (P.on x).epollWait k <;> rfl
    have hpanicked : (((P.on x).epollWait k).ignoreErr).panicked.isNone =
        k.list.all (P.on x).deliverable := by
      rw [← epollWait_panicked_eq hk]
      cases (P.on x).epollWait k <;> rfl
    simp only [if_true, List.singleton_append, performAll, perform, hmem, hpanicked, checked, hb,
      enqueues, Bool.not_true, Bool.false_or]
    cases hall : k.list.all (P.on x).deliverable with
    | false => simp
    | true =>
      have hon := on_setMemory (P := P) (s := ((P.on x).epollWait k).memory) (x := x) hst.cur
      have htasks : ((P.on x).epollWait k).memory.tasks = P.memory.tasks := hst.tasks
      have henqueue := performAll_enqueue (P.setMemory ((P.on x).epollWait k).memory) k x t
      rw [hon] at henqueue
      simp only [setMemory, htasks] at henqueue ⊢
      rw [henqueue]
      cases hc : (P.memory.tasks t).hasCompleted with
      | false => rfl
      | true =>
        rw [Thread.enqueue_of_completed (by rw [htasks, hc])]
        rfl

/-- What a wake of a task on its own thread does. -/
lemma woke_of_taskWake {x : ExecId} {t : TaskId} {k : KernelAnswer} (hk : (P.on x).answers k)
    (halive : P.memory.alive t = true) : Woke (P.on x)
      (if P.enqueues x k t then (P.checked x k t).enqueue t else P.checked x k t) (P.aims x k t) := by
  have hchecked : Woke (P.on x) (P.checked x k t)
      (if (P.memory.tasks t).borrowed then
        ((P.on x).delivered k).filterMap (P.on x).target else []) := by
    unfold checked
    split_ifs
    · obtain ⟨hnodup, hs⟩ := epollWait_delivered hk
      exact wakeup_woke hnodup hs
    · exact Thread.woke_nil .refl rfl (fun _ _ => rfl) rfl
  unfold aims
  cases P.enqueues x k t with
  | false => simpa using hchecked
  | true =>
    have halive' : (P.checked x k t).alive t = true := hchecked.effects.alive_congr.trans halive
    exact hchecked.trans (woke_enqueue halive')

/-- A wake of a task on its own thread changes only `Fd`s that are registered. -/
lemma fds_of_taskWake {x : ExecId} {t : TaskId} {k : KernelAnswer} (hk : (P.on x).answers k) {f : FdId}
    (hf : ∀ raw, (raw, f) ∉ (P.memory.execs x).interest) :
    (if P.enqueues x k t then (P.checked x k t).enqueue t else P.checked x k t).fds f =
      P.memory.fds f := by
  have hchecked : (P.checked x k t).fds f = P.memory.fds f := by
    unfold checked
    split_ifs
    · exact fds_of_epollWait hk hf
    · rfl
  split_ifs
  · rw [(Thread.enqueue_frame _ t).1, hchecked]
  · exact hchecked

/-- A wake of a task on the thread of an executor that has got the number of its pipe does nothing exactly
if the task is not enqueued and `epoll_wait`, if it is called, has no effect. -/
lemma taskWake_eq_iff {x : ExecId} {t : TaskId} {k : KernelAnswer} (hk : (P.on x).answers k)
    (hsame : (P.memory.tasks t).pipeWr = (P.memory.execs x).pipeWr) (halive : P.memory.alive t = true) :
    (P.performAll k (P.taskWake x t)).1 = P ↔
      ((P.memory.tasks t).borrowed = true → P.WaitsInertly x k) ∧ P.enqueues x k t = false := by
  rw [performAll_taskWake hk hsame]
  cases henqueues : P.enqueues x k t with
  | true =>
    refine iff_of_false (fun heq => ?_) (by simp)
    have hw := woke_of_taskWake hk halive
    obtain ⟨m, hm, hmem⟩ := hw.log
    have hwakeable : (P.on x).Wakeable t := by
      refine ⟨halive, ?_⟩
      simp only [enqueues, Bool.and_eq_true, Bool.not_eq_true'] at henqueues
      exact henqueues.1
    have hrecorded : Event.enqueued t ∈ m := (hmem t).mpr ⟨by simp [aims, henqueues], hwakeable⟩
    have hlog := congrArg (fun Q : Process V => Q.memory.log.length) heq
    rw [henqueues] at hm
    simp only [if_true] at hm
    simp only [setMemory, if_true, hm, List.length_append] at hlog
    have hpos := List.length_pos_of_mem hrecorded
    have hon : (P.on x).log.length = P.memory.log.length := rfl
    omega
  | false =>
    simp only [Bool.false_eq_true, if_false, and_true]
    have hset : ∀ s : Thread V, s.cur = x → (P.setMemory s = P ↔ s = P.on x) := by
      rintro s rfl
      refine ⟨fun heq => ?_, fun heq => ?_⟩
      · have hmem := congrArg Process.memory heq
        rw [on, ← hmem]
        rfl
      · rw [heq]
        rfl
    unfold checked
    cases hb : (P.memory.tasks t).borrowed with
    | false => exact iff_of_true rfl (by simp)
    | true =>
      simp only [if_true, true_implies]
      rw [hset _ (epollWait_effects (P.on x) k).steady.cur, epollWait_memory_eq_iff hk, WaitsInertly]

/-! ## Where wakes have an effect -/

/-- A wake of a task is confined to its executor exactly if the number of the pipe misleads nobody. -/
lemma Wf.confined_taskWake (h : P.Wf) {x : ExecId} (hx : x < P.nExecs)
    (hopen : (P.memory.execs x).isOpen = true) {t : TaskId} (ht : t < P.memory.nTasks)
    (halive : P.memory.alive t = true) {k : KernelAnswer} (hk : (P.on x).answers k) :
    P.Confined (P.performAll k (P.taskWake x t)).1 (P.memory.tasks t).exec ↔ P.Harmless x k (.task t) := by
  obtain ⟨hty, hpipe⟩ := h.tasks t ht
  by_cases hsame : (P.memory.tasks t).pipeWr = (P.memory.execs x).pipeWr
  · simp only [Harmless, if_pos hsame]
    by_cases hyo : (P.memory.execs (P.memory.tasks t).exec).isOpen = true
    · -- The executor of the task is `x` itself.
      have hexec := h.eq_of_pipeWr_eq hx hopen hty hyo (hpipe.symm.trans hsame)
      rw [if_pos hyo, hexec, performAll_taskWake hk hsame,
        confined_of_woke hopen (woke_of_taskWake hk halive) fun f hf => fds_of_taskWake hk hf]
      constructor
      · intro hall
        refine ⟨fun hb u hu => hall u ?_, fun he => hall t ?_ ⟨halive, ?_⟩⟩
        · simp [aims, hb, hu]
        · simp [aims, he]
        · simp only [enqueues, Bool.and_eq_true, Bool.not_eq_true'] at he
          exact he.1
      · rintro ⟨hown, henqueued⟩ u hu hw
        rcases List.mem_append.mp hu with hu | hu
        · split_ifs at hu with hb
          · exact hown hb u hu hw
          · simp at hu
        · split_ifs at hu with he
          · exact List.mem_singleton.mp hu ▸ henqueued he
          · simp at hu
    · rw [if_neg hyo, confined_iff_eq (by simpa using hyo), taskWake_eq_iff hk hsame halive]
  · simp only [Harmless, if_neg hsame]
    rw [taskWake, if_neg hsame, hpipe]
    exact h.confined_writeTo hty

/-- A wake of a `block_on` is confined to its executor exactly if the number of the pipe misleads nobody. -/
lemma Wf.confined_blockOnWake (h : P.Wf) {x : ExecId} {b : BlockOnId} (hb : b < P.memory.nBlockOns)
    {k : KernelAnswer} :
    P.Confined (P.performAll k (P.blockOnWake x (P.memory.blockOnPipe b))).1 (P.blockOnExec b) ↔
      P.Harmless x k (.blockOn (P.memory.blockOnPipe b) b) := by
  obtain ⟨hby, hpipe⟩ := h.blockOns b hb
  by_cases hsame : P.memory.blockOnPipe b = (P.memory.execs x).pipeWr
  · rw [blockOnWake, if_pos hsame]
    exact iff_of_true (.refl P _) (.inl hsame)
  · rw [blockOnWake, if_neg hsame, hpipe, h.confined_writeTo hby, Harmless, or_iff_right]
    rwa [← hpipe]

end Process

end Epox

import Epox.Executor.Shutdown

/-!
# Thread exit

When a thread exits, the destructor of the thread-local `EXECUTOR` drops the queues.  From its beginning
on `exec` panics, whatever it is given to do, and `try_exec` returns `None`.  `Exiting.step` is the machine
of this phase: the loops of `Queue::drop`, and between two pops the destructors of the futures, which may
call any function of the crate.

Only `Fd::drop` goes through `try_exec`.  Dropping the queues completes in every run in which the
destructors wake no task that is alive, no `block_on`, and call nothing else that needs the executor
(`exit_completes`).
-/

namespace Epox

/-- A thread whose executor is being destroyed. -/
structure Exiting (V : Type) where
  thread : Thread V
  /-- `exec` has panicked. -/
  denied : Bool
  /-- The queues have been dropped. -/
  done : Bool

/-- What the environment of an exiting thread decides about its next step. -/
inductive ExitAction (V : Type)
  /-- An action on the memory of the thread; `go` is the loop that drops the queues. -/
  | own (a : Action V)
  /-- The destructor wakes a task of another thread that is alive or not, or its `block_on`, which
  counts as alive. -/
  | wakeElsewhere (alive : Bool)

/-- The handles of tasks, the closures of `Fd`s and other threads do not need the executor. -/
def Action.isBare {V : Type} : Action V → Bool
  | .handleResult _ | .handlePoll _ _ | .dropHandle _ | .closure _ => true
  | .foreignUpgrade _ | .foreignWrite _ | .foreignBlockOn _ => true
  | _ => false

namespace Exiting

variable {V : Type}

/-! ## The functions of the crate without an executor -/

/-- Change the memory. -/
def within (e : Exiting V) (s : Thread V) : Exiting V := { e with thread := s }

/-- `exec`. -/
def exec (e : Exiting V) : Exiting V := { e with denied := true }

/-- `Waker::wake_by_ref`. -/
def wake (e : Exiting V) : Waker → Exiting V
  | .task t => if e.thread.alive t then e.exec else e.within (e.thread.emit (.woken t))
  | .blockOn _ _ => e.exec
  | .noop => e
  | .other j => e.within (e.thread.emit (.otherWoken j))

/-- `Fd::new`: the executor is needed once `fcntl(2)` has succeeded. -/
def fdNew (e : Exiting V) (fcntl : Bool) : Exiting V :=
  if fcntl then e.exec else e

/-- `Fd::drop`: `try_exec` returns `None`, which is ignored. -/
def fdDrop (e : Exiting V) (f : FdId) : Exiting V :=
  e.within (e.thread.setFd f { e.thread.fds f with live := false })

/-- `Fd::poll_with`, up to the first call of the closure. -/
def pollWith (e : Exiting V) (f : FdId) (cx : Waker) : Exiting V :=
  let s := e.thread
  let fd := s.fds f
  if fd.borrowed then
    e.within (s.panic (.wakerBorrowed f))
  else
    match fd.ew.pollWithEnter cx with
    | .pending ew => e.within (s.setFd f { fd with ew := ew })
    | .yield ew => (e.within (s.setFd f { fd with ew := ew })).wake cx
    | .call =>
      e.within ((s.setFd f { fd with borrowed := true }).setStack (.pollWith f cx :: s.stack))

/-! ## Steps -/

/-- The destructor on top of the stack calls a function of the crate. -/
def call (e e' : Exiting V) : Option (Exiting V) :=
  if e.thread.inUserCode then some e' else none

/-- The next step of the loops of `Queue::drop`. -/
def dropQueues (e : Exiting V) : Option (Exiting V) :=
  if e.thread.stack = [] ∧ e.done = false then
    match e.thread.popReplaced e.thread.cur with
    | some (t, s) => some (e.within (if s.alive t then s else s.setStack [.run (.dropping s.cur)]))
    | none => some { e with done := true }
  else
    none

/-- The destructor of a future returns. -/
def finish (e : Exiting V) : Option (Exiting V) :=
  match e.thread.stack with
  | [.run (.dropping _)] => some (e.within (e.thread.setStack []))
  | _ => none

/-- One step of a thread that has not panicked. -/
def act (e : Exiting V) : ExitAction V → Option (Exiting V)
  | .wakeElsewhere alive => e.call (if alive then e.exec else e)
  | .own (.go _) => e.dropQueues
  | .own .finish => e.finish
  | .own (.wake w _) => if e.thread.knows w then e.call (e.wake w) else none
  | .own (.abort t) => if (e.thread.tasks t).handle then e.call e.exec else none
  | .own (.spawn _) => e.call e.exec
  | .own .shutdown => e.call e.exec
  | .own .run => e.call e.exec
  | .own .blockOn => e.call e.exec
  | .own (.fdNew _ _ fcntl _) => e.call (e.fdNew fcntl)
  | .own (.fdDrop f) =>
    if (e.thread.fds f).live ∧ ¬ (e.thread.fds f).borrowed then e.call (e.fdDrop f) else none
  | .own (.pollWith f cx _) =>
    if (e.thread.fds f).live ∧ e.thread.knows cx then e.call (e.pollWith f cx) else none
  | .own a => if a.isBare then (e.thread.act a).map e.within else none

/-- One step of an exiting thread. -/
def step (e : Exiting V) (a : ExitAction V) : Option (Exiting V) :=
  if e.denied || e.thread.panicked.isSome then none else e.act a

/-- No call of the thread is in progress, no future is borrowed, and the destruction of its executor
begins. -/
def IsStart (e : Exiting V) : Prop :=
  e.thread.stack = [] ∧ e.thread.panicked = none ∧ (∀ t, (e.thread.tasks t).borrowed = false) ∧
    e.denied = false ∧ e.done = false

end Exiting

/-- The thread exits. -/
def Thread.exit {V : Type} (s : Thread V) : Exiting V where
  thread := s.setStack []
  denied := false
  done := false

namespace Exiting

variable {V : Type} {e e' : Exiting V}

/-- A thread that has returned from its own code exits. -/
def IsExit (e : Exiting V) : Prop :=
  ∃ s : Thread V, Reachable Thread.step Thread.IsStart s ∧ s.stack = [.user] ∧ s.panicked = none ∧
    e = s.exit

/-- When a thread has returned from its own code, no future is borrowed. -/
lemma IsExit.isStart (h : e.IsExit) : e.IsStart := by
  obtain ⟨s, hr, hstack, hp, rfl⟩ := h
  refine ⟨rfl, hp, fun t => ?_, rfl, rfl⟩
  have hnot : t ∉ s.borrowing := by simp [Thread.borrowing, hstack, Frame.borrows]
  have hb := (Thread.wf_of_reachable hr).borrowed t
  exact Bool.eq_false_iff.mpr fun ht => hnot (hb.mp ht)

/-! ## What the destructors have to avoid -/

/-- The waker belongs to a task that is alive or to a `block_on`. -/
def wakesAny (e : Exiting V) : Waker → Bool
  | .task t => e.thread.alive t
  | .blockOn _ _ => true
  | .noop | .other _ => false

/-- A poll of the `Fd` yields: its flags are not empty, and the limit is reached. -/
def yields (e : Exiting V) (f : FdId) : Bool :=
  (e.thread.fds f).ew.events ≠ 0 ∧ burstLimit ≤ (e.thread.fds f).ew.burst

/-- The destructor wakes no task that is alive and no `block_on`, neither by itself nor by polling an
`Fd` that yields; it does not abort, spawn, run, block or shut down, and creates no `Fd`; and it does not
poll an `Fd` within its own closure. -/
def Spares (e : Exiting V) : ExitAction V → Prop
  | .wakeElsewhere alive => alive = false
  | .own (.wake w _) => e.wakesAny w = false
  | .own (.pollWith f cx _) =>
    (e.thread.fds f).borrowed = false ∧ (e.yields f = true → e.wakesAny cx = false)
  | .own (.fdNew _ _ fcntl _) => fcntl = false
  | .own (.abort _) | .own (.spawn _) | .own .shutdown | .own .run | .own .blockOn => False
  | _ => True

instance (e : Exiting V) (a : ExitAction V) : Decidable (Spares e a) := by
  unfold Spares
  split <;> infer_instance

/-! ## What a step can do -/

/-- What a call from a destructor leaves alone unless it is about a task. -/
structure Quiet (e e' : Exiting V) : Prop where
  queues : e'.thread.queues = e.thread.queues
  cur : e'.thread.cur = e.thread.cur
  tasks : e'.thread.tasks = e.thread.tasks
  waking : e'.thread.waking = e.thread.waking
  running : e'.thread.running = e.thread.running
  done : e'.done = e.done

/-- Nothing changes when nothing is done. -/
lemma Quiet.refl (e : Exiting V) : Quiet e e := ⟨rfl, rfl, rfl, rfl, rfl, rfl⟩

/-- A wake is not about a task. -/
lemma wake_quiet (e : Exiting V) (w : Waker) : Quiet e (e.wake w) := by
  cases w with
  | task t =>
    simp only [wake]
    split_ifs
    · exact ⟨rfl, rfl, rfl, rfl, rfl, rfl⟩
    · exact ⟨rfl, rfl, rfl, rfl, rfl, rfl⟩
  | blockOn pipeWr b => exact ⟨rfl, rfl, rfl, rfl, rfl, rfl⟩
  | noop => exact .refl e
  | other j => exact ⟨rfl, rfl, rfl, rfl, rfl, rfl⟩

/-- A poll of an `Fd` is not about a task. -/
lemma pollWith_quiet (e : Exiting V) (f : FdId) (cx : Waker) : Quiet e (e.pollWith f cx) := by
  simp only [pollWith]
  split_ifs
  · exact ⟨rfl, rfl, rfl, rfl, rfl, rfl⟩
  · split
    · exact ⟨rfl, rfl, rfl, rfl, rfl, rfl⟩
    · obtain ⟨hqueues, hcur, htasks, hwaking, hrunning, hdone⟩ :=
        wake_quiet (e.within (e.thread.setFd f _)) cx
      exact ⟨hqueues, hcur, htasks, hwaking, hrunning, hdone⟩
    · exact ⟨rfl, rfl, rfl, rfl, rfl, rfl⟩

/-- What a step of an exiting thread does. -/
inductive Move (e : Exiting V) : ExitAction V → Exiting V → Prop
  /-- The loops take a task out of its queue; its future is dropped if this was the last reference. -/
  | pop {k : KernelAnswer} {u : TaskId} {q : QueueName} {fs : List Frame}
      (hstack : e.thread.stack = []) (hdone : e.done = false)
      (hpop : (e.thread.popReplaced e.thread.cur).map Prod.fst = some u)
      (hq : e.thread.queues.home u = some (e.thread.cur, q))
      (hfs : fs = [] ∨ fs = [.run (.dropping e.thread.cur)]) :
      Move e (.own (.go k)) (e.within ({ e.thread with
        queues := e.thread.queues.release u, log := .discarded u :: e.thread.log }.setStack fs))
  /-- The loops find the queues empty. -/
  | last {k : KernelAnswer} (hpop : e.thread.popReplaced e.thread.cur = none) :
      Move e (.own (.go k)) { e with done := true }
  /-- A call that does not need the executor. -/
  | bare {a : Action V} {s' : Thread V} (ha : a.isBare = true) (hs : e.thread.step a = some s') :
      Move e (.own a) (e.within s')
  | quiet {a : ExitAction V} {e' : Exiting V} (hgo : ∀ k, a ≠ .own (.go k))
      (hbare : ∀ b, a = .own b → b.isBare = false) (h : Quiet e e') : Move e a e'

/-- The executor is called from the code of a destructor only. -/
lemma call_eq_some {e₁ : Exiting V} : e.call e₁ = some e' ↔ e.thread.inUserCode = true ∧ e' = e₁ := by
  simp only [call, Option.ite_none_right_eq_some, Option.some.injEq]
  exact and_congr_right fun _ => eq_comm

/-- Every step of an exiting thread is a move. -/
theorem move_of_step {a : ExitAction V} (h : e.step a = some e') :
    e.denied = false ∧ e.thread.panicked = none ∧ Move e a e' := by
  unfold step at h
  split_ifs at h with hlive
  obtain ⟨hd, hp⟩ : e.denied = false ∧ e.thread.panicked = none := by simpa using hlive
  refine ⟨hd, hp, ?_⟩
  -- A call from a destructor that is not about a task.
  have hcall : ∀ (b : Action V) (e₁ : Exiting V), (∀ k, b ≠ .go k) → b.isBare = false → Quiet e e₁ →
      e.call e₁ = some e' → Move e (.own b) e' := by
    intro b e₁ hgo hbare hq he
    obtain ⟨-, rfl⟩ := call_eq_some.mp he
    exact .quiet (fun k hk => hgo k (ExitAction.own.inj hk)) (fun b' hb' => ExitAction.own.inj hb' ▸ hbare) hq
  have hexec : Quiet e e.exec := ⟨rfl, rfl, rfl, rfl, rfl, rfl⟩
  cases a with
  | wakeElsewhere alive =>
    obtain ⟨-, rfl⟩ := call_eq_some.mp h
    refine .quiet (by simp) (by simp) ?_
    cases alive with
    | false => exact .refl e
    | true => exact hexec
  | own a =>
    cases a with
    | go k =>
      simp only [act, dropQueues] at h
      split_ifs at h with hloop
      split at h
      · rename_i t s₁ hpop
        obtain ⟨⟨q, hq⟩, hs₁⟩ := Thread.popReplaced_eq_some hpop
        have hmove : ∀ fs, fs = [] ∨ fs = [.run (.dropping e.thread.cur)] →
            Move e (.own (.go k)) (e.within (s₁.setStack fs)) := fun fs hfs =>
          hs₁ ▸ .pop hloop.1 hloop.2 (by simp [hpop]) hq hfs
        have hstack₁ : s₁.setStack [] = s₁ := by
          rw [hs₁, Thread.setStack, ← hloop.1]
        obtain rfl := Option.some.inj h
        split_ifs
        · exact hstack₁ ▸ hmove [] (.inl rfl)
        · exact hmove _ (.inr (by rw [hs₁]))
      · rename_i hpop
        exact Option.some.inj h ▸ .last hpop
    | finish =>
      simp only [act, finish] at h
      split at h
      · rename_i x hstack
        obtain rfl := Option.some.inj h
        exact .quiet (by simp) (by simp [Action.isBare])
          ⟨rfl, rfl, rfl, rfl, (Thread.running_cons hstack).symm, rfl⟩
      · simp at h
    | wake w k =>
      simp only [act] at h
      split_ifs at h
      exact hcall _ _ (by simp) rfl (wake_quiet e w) h
    | abort t =>
      simp only [act] at h
      split_ifs at h
      exact hcall _ _ (by simp) rfl hexec h
    | spawn _ | shutdown | run | blockOn => exact hcall _ _ (by simp) rfl hexec h
    | fdNew raw events fcntl ctl =>
      refine hcall _ _ (by simp) rfl ?_ h
      cases fcntl with
      | false => exact .refl e
      | true => exact hexec
    | fdDrop f =>
      simp only [act] at h
      split_ifs at h
      exact hcall _ (e.fdDrop f) (by simp) rfl ⟨rfl, rfl, rfl, rfl, rfl, rfl⟩ h
    | pollWith f cx k =>
      simp only [act] at h
      split_ifs at h
      exact hcall _ _ (by simp) rfl (pollWith_quiet e f cx) h
    | handleResult _ | handlePoll _ _ | dropHandle _ | closure _ | foreignUpgrade _ | foreignWrite _
    | foreignBlockOn _ =>
      simp only [act, Action.isBare, if_true, Option.map_eq_some_iff] at h
      obtain ⟨s', hs', rfl⟩ := h
      refine .bare rfl ?_
      unfold Thread.step
      rwa [if_neg (by simp [hp])]
    | pending | ready _ | replace _ => simp [act, Action.isBare] at h

/-! ## When a step panics -/

/-- A wake panics if it wakes a task that is alive, or a `block_on`. -/
lemma wake_denied (e : Exiting V) (w : Waker) :
    (e.wake w).denied = (e.denied || e.wakesAny w) ∧ (e.wake w).thread.panicked = e.thread.panicked := by
  cases w with
  | task t =>
    simp only [wake, wakesAny]
    split_ifs with halive
    · simp [exec, halive]
    · simp [within, Thread.emit, halive]
  | blockOn pipeWr b => simp [wake, exec, wakesAny]
  | noop => simp [wake, wakesAny]
  | other j => simp [wake, within, Thread.emit, wakesAny]

/-- A poll of an `Fd` panics within its own closure, or if it yields and wakes. -/
lemma pollWith_denied {f : FdId} {cx : Waker} (hd : e.denied = false) (hp : e.thread.panicked = none) :
    ((e.pollWith f cx).denied = false ∧ (e.pollWith f cx).thread.panicked = none) ↔
      (e.thread.fds f).borrowed = false ∧ (e.yields f = true → e.wakesAny cx = false) := by
  simp only [pollWith, EpollWaker.pollWithEnter, yields]
  split_ifs with hb hempty hburst
  · simp [within, Thread.panic, hb]
  · simp [within, Thread.setFd, hempty, hb, hd, hp]
  · have hwake := wake_denied (e.within (e.thread.setFd f { e.thread.fds f with
      ew := { (e.thread.fds f).ew with burst := 0 } })) cx
    have hany : (e.within (e.thread.setFd f { e.thread.fds f with
        ew := { (e.thread.fds f).ew with burst := 0 } })).wakesAny cx = e.wakesAny cx := by
      cases cx <;> rfl
    have hyields : (e.thread.fds f).ew.events ≠ 0#32 := hempty
    rw [hwake.1, hwake.2, hany]
    simp [within, Thread.setFd, hyields, hburst, hb, hd, hp]
  · simp [within, Thread.setFd, Thread.setStack, hburst, hb, hd, hp]

/-- Changing a task but not its borrow. -/
lemma borrowed_setTask {s : Thread V} {t : TaskId} {task : ExecutorTask V}
    (h : task.borrowed = (s.tasks t).borrowed) (u : TaskId) :
    ((s.setTask t task).tasks u).borrowed = (s.tasks u).borrowed := by
  by_cases hu : u = t
  · simp [Thread.setTask, hu, h]
  · simp [Thread.setTask, hu]

/-- What needs no executor leaves the queues alone, and does not panic unless a future is borrowed. -/
lemma of_isBare {s s' : Thread V} {a : Action V} (ha : a.isBare = true) (h : s.step a = some s')
    (hb : ∀ t, (s.tasks t).borrowed = false) : s'.queues = s.queues ∧ s'.cur = s.cur ∧
      (∀ t, (s'.tasks t).borrowed = (s.tasks t).borrowed) ∧ s'.panicked = none := by
  obtain ⟨hp, hacts⟩ := Thread.acts_of_step h
  have hundisturbed : Thread.Undisturbed s s' → s'.queues = s.queues ∧ s'.cur = s.cur ∧
      (∀ t, (s'.tasks t).borrowed = (s.tasks t).borrowed) ∧ s'.panicked = none := fun hu =>
    ⟨hu.queues, hu.cur, fun t => by rw [hu.tasks], hu.panicked.trans hp⟩
  cases hacts with
  | handleResult t =>
    rw [Thread.handleResult, if_neg (by simp [hb t])]
    exact ⟨rfl, rfl, borrowed_setTask rfl, hp⟩
  | handlePoll t w =>
    rw [Thread.handlePoll, if_neg (by simp [hb t])]
    split
    · exact ⟨rfl, rfl, borrowed_setTask rfl, hp⟩
    · exact ⟨rfl, rfl, borrowed_setTask rfl, hp⟩
  | dropHandle t => exact ⟨rfl, rfl, borrowed_setTask rfl, hp⟩
  | interrupted | closure => exact ⟨rfl, rfl, fun _ => rfl, hp⟩
  | foreignUpgrade t => exact hundisturbed (Thread.foreignUpgrade_undisturbed s t)
  | foreignWrite t => exact hundisturbed (Thread.foreignWrite_undisturbed s t)
  | foreignBlockOn b => exact hundisturbed (Thread.foreignBlockOn_undisturbed s b)
  | _ => simp [Action.isBare] at ha

/-- A step panics exactly if the destructor does what it has to avoid. -/
lemma step_spares {a : ExitAction V} (h : e.step a = some e')
    (hb : ∀ t, (e.thread.tasks t).borrowed = false) :
    (e'.denied = false ∧ e'.thread.panicked = none) ↔ Spares e a := by
  obtain ⟨hd, hp, hm⟩ := move_of_step h
  -- The moves of the loops and the calls that do not need the executor never panic.
  cases hm with
  | pop => simp [within, Thread.setStack, hd, hp, Spares]
  | last => simp [hd, hp, Spares]
  | @bare b s' hbare hs =>
    have hspares : Spares e (.own b) := by
      cases b <;> simp_all [Action.isBare, Spares]
    simp [within, hd, (of_isBare hbare hs hb).2.2.2, hspares]
  | quiet hgo hbare hq =>
    simp only [step, hd, hp, Option.isSome_none, Bool.or_self, Bool.false_eq_true, if_false] at h
    have hdenied : e.call e.exec = some e' → e'.denied = true := fun he => by
      obtain ⟨-, rfl⟩ := call_eq_some.mp he
      rfl
    cases a with
    | wakeElsewhere alive =>
      obtain ⟨-, rfl⟩ := call_eq_some.mp h
      cases alive <;> simp [exec, hd, hp, Spares]
    | own a =>
      cases a with
      | finish =>
        simp only [act, finish] at h
        split at h
        · obtain rfl := Option.some.inj h
          simp [within, Thread.setStack, hd, hp, Spares]
        · simp at h
      | wake w k =>
        simp only [act] at h
        split_ifs at h
        obtain ⟨-, rfl⟩ := call_eq_some.mp h
        rw [(wake_denied e w).1, (wake_denied e w).2]
        simp [hd, hp, Spares]
      | abort t =>
        simp only [act] at h
        split_ifs at h
        simp [hdenied h, Spares]
      | spawn _ | shutdown | run | blockOn => simp [hdenied h, Spares]
      | fdNew raw events fcntl ctl =>
        obtain ⟨-, rfl⟩ := call_eq_some.mp h
        cases fcntl <;> simp [fdNew, exec, hd, hp, Spares]
      | fdDrop f =>
        simp only [act] at h
        split_ifs at h
        obtain ⟨-, rfl⟩ := call_eq_some.mp h
        simp [fdDrop, within, Thread.setFd, hd, hp, Spares]
      | pollWith f cx k =>
        simp only [act] at h
        split_ifs at h
        obtain ⟨-, rfl⟩ := call_eq_some.mp h
        exact pollWith_denied hd hp
      | go k => exact absurd rfl (hgo k)
      | handleResult _ | handlePoll _ _ | dropHandle _ | closure _ | foreignUpgrade _ | foreignWrite _
      | foreignBlockOn _ => simp [Action.isBare] at hbare
      | pending | ready _ | replace _ => simp [act, Action.isBare] at h

/-! ## The loops -/

/-- How many tasks are still queued. -/
def queued (e : Exiting V) : ℕ := e.thread.queued e.thread.cur

/-- A step of the loops drops a task, or finds the queues empty; no other step changes the queues. -/
lemma queued_of_step {a : ExitAction V} (h : e.step a = some e')
    (hb : ∀ t, (e.thread.tasks t).borrowed = false) :
    (∀ t, (e'.thread.tasks t).borrowed = false) ∧
      ((∃ k, a = .own (.go k)) ∧ (e'.queued < e.queued ∧ e'.done = false ∨
          e'.done = true ∧ ∀ q, e'.thread.queues.list (e'.thread.cur, q) = []) ∨
        (∀ k, a ≠ .own (.go k)) ∧ e'.thread.queues = e.thread.queues ∧ e'.thread.cur = e.thread.cur ∧
          e'.done = e.done) := by
  cases (move_of_step h).2.2 with
  | @pop k u q fs hstack hdone hpop hq hfs =>
    exact ⟨hb, .inl ⟨⟨k, rfl⟩, .inl ⟨Thread.queued_release_lt hq rfl, hdone⟩⟩⟩
  | @last k hpop => exact ⟨hb, .inl ⟨⟨k, rfl⟩, .inr ⟨rfl, Thread.popReplaced_eq_none hpop⟩⟩⟩
  | bare hbare hs =>
    obtain ⟨hqueues, hcur, hborrowed, -⟩ := of_isBare hbare hs hb
    refine ⟨fun t => (hborrowed t).trans (hb t), .inr ⟨?_, hqueues, hcur, rfl⟩⟩
    rintro k hk
    simp [ExitAction.own.inj hk, Action.isBare] at hbare
  | quiet hgo hbare hq => exact ⟨fun t => hq.tasks ▸ hb t, .inr ⟨hgo, hq.queues, hq.cur, hq.done⟩⟩

/-- The loops go on, or a destructor returns. -/
def GoesOn (e e' : Exiting V) : Prop :=
  ∃ a, (a = .go (.ok []) ∨ a = .finish) ∧ e.step (.own a) = some e'

/-- A destructor returns. -/
lemma step_finish {x : ExecId} (hd : e.denied = false) (hp : e.thread.panicked = none)
    (hstack : e.thread.stack = [.run (.dropping x)]) :
    e.step (.own .finish) = some (e.within (e.thread.setStack [])) := by
  simp [step, act, finish, hstack, hd, hp]

/-- The loops come to their end, if the destructors return. -/
lemma loop_completes (hstack : e.thread.stack = []) (hd : e.denied = false)
    (hp : e.thread.panicked = none) (hdone : e.done = false) :
    ∃ e', Relation.ReflTransGen GoesOn e e' ∧ e'.done = true := by
  induction hn : e.queued using Nat.strong_induction_on generalizing e with
  | _ n ih =>
    have hgo : ∀ e', e.dropQueues = some e' → GoesOn e e' := fun e' he' =>
      ⟨.go (.ok []), .inl rfl, by simp [step, act, hd, hp, he']⟩
    cases hpop : e.thread.popReplaced e.thread.cur with
    | none =>
      refine ⟨{ e with done := true }, .single (hgo _ ?_), rfl⟩
      simp [dropQueues, hstack, hdone, hpop]
    | some r =>
      obtain ⟨t, s₁⟩ := r
      obtain ⟨⟨q, hq⟩, hs₁⟩ := Thread.popReplaced_eq_some hpop
      have hstack₁ : s₁.stack = [] := by rw [hs₁]; exact hstack
      have hp₁ : s₁.panicked = none := by rw [hs₁]; exact hp
      have hlt : (e.within s₁).queued < n := by
        rw [← hn]
        subst hs₁
        exact Thread.queued_release_lt hq rfl
      obtain ⟨e', hrun, hdone'⟩ := ih _ hlt (e := e.within s₁) hstack₁ hd hp₁ hdone rfl
      by_cases halive : s₁.alive t = true
      · have hs : GoesOn e (e.within s₁) := hgo _ (by simp [dropQueues, hstack, hdone, hpop, halive])
        exact ⟨e', .head hs hrun, hdone'⟩
      · -- The destructor of the task returns at once.
        have hs : GoesOn e (e.within (s₁.setStack [.run (.dropping s₁.cur)])) :=
          hgo _ (by simp [dropQueues, hstack, hdone, hpop, halive])
        have hs' : GoesOn (e.within (s₁.setStack [.run (.dropping s₁.cur)])) (e.within s₁) := by
          refine ⟨.finish, .inr rfl, ?_⟩
          have hback : (s₁.setStack [.run (.dropping s₁.cur)]).setStack [] = s₁ := by
            rw [Thread.setStack, Thread.setStack, ← hstack₁]
          have hfinish := step_finish (e := e.within (s₁.setStack [.run (.dropping s₁.cur)])) hd hp₁ rfl
          exact hfinish.trans (congrArg some (congrArg e.within hback))
        exact ⟨e', .head hs (.head hs' hrun), hdone'⟩

/-- Nothing has panicked, no future is borrowed, and the loops have ended only with empty queues. -/
structure Intact (e : Exiting V) : Prop where
  denied : e.denied = false
  panicked : e.thread.panicked = none
  unborrowed : ∀ t, (e.thread.tasks t).borrowed = false
  empty : e.done = true → ∀ q, e.thread.queues.list (e.thread.cur, q) = []

/-- A step that meets the condition leaves the exiting thread intact. -/
lemma intact_step {a : ExitAction V} (hs : e.step a = some e') (hC : Spares e a) (hi : Intact e) :
    Intact e' := by
  obtain ⟨hd, hp⟩ := (step_spares hs hi.unborrowed).mpr hC
  obtain ⟨hb, hgo⟩ := queued_of_step hs hi.unborrowed
  refine ⟨hd, hp, hb, fun hdone => ?_⟩
  rcases hgo with ⟨-, ⟨-, hnot⟩ | ⟨-, hempty⟩⟩ | ⟨-, hqueues, hcur, hdone'⟩
  · simp [hdone] at hnot
  · exact hempty
  · rw [hqueues, hcur]
    exact hi.empty (hdone' ▸ hdone)

/-- In every run of an exiting thread in which the destructors wake no task that is alive and no
`block_on`, and call nothing else that needs the executor: `exec` is not entered and nothing panics, which
for every single step is the case exactly if it meets this condition; no task is put into a queue, and
each step of the loops takes one out or is the last; the loops come to their end, if the destructors
return, and then no task is queued. -/
theorem exit_completes (h : ReachableUnder step IsStart Spares e) :
    (e.denied = false ∧ e.thread.panicked = none) ∧
      (∀ a e', e.step a = some e' →
        ((e'.denied = false ∧ e'.thread.panicked = none) ↔ Spares e a) ∧
          e'.queued ≤ e.queued ∧ ∀ k, a = .own (.go k) → e'.queued < e.queued ∨ e'.done = true) ∧
        (e.thread.stack = [] → e.done = false →
          ∃ e', Relation.ReflTransGen GoesOn e e' ∧ e'.done = true) ∧
          (e.done = true → ∀ q, e.thread.queues.list (e.thread.cur, q) = []) := by
  have hi : Intact e := by
    refine h.invariant ?_ ?_
    · rintro e ⟨-, hp, hb, hd, hdone⟩
      exact ⟨hd, hp, hb, fun h => by simp [hdone] at h⟩
    · rintro e a e' - hi hC hs
      exact intact_step hs hC hi
  refine ⟨⟨hi.denied, hi.panicked⟩, fun a e' hs => ?_,
    fun hstack hdone => loop_completes hstack hi.denied hi.panicked hdone, hi.empty⟩
  refine ⟨step_spares hs hi.unborrowed, ?_⟩
  rcases (queued_of_step hs hi.unborrowed).2 with ⟨-, hgo⟩ | ⟨hgo, hqueues, hcur, -⟩
  · refine ⟨?_, fun _ _ => hgo.imp And.left And.left⟩
    rcases hgo with ⟨hlt, -⟩ | ⟨-, hempty⟩
    · exact hlt.le
    · simp [queued, Thread.queued, hempty]
  · have hle : e'.queued ≤ e.queued := by
      unfold queued Thread.queued
      rw [hqueues, hcur]
    exact ⟨hle, fun k hk => absurd hk (hgo k)⟩

/-- An exiting thread with a property that is reached by executing actions of the thread until it has
returned from its own code, and then actions of its exit. -/
lemma exists_exiting (C : Exiting V → ExitAction V → Prop) [∀ e a, Decidable (C e a)]
    (before : List (Action V)) (actions : List (ExitAction V)) (P : Exiting V → Bool)
    (hP : (Epox.exec Thread.step (fun _ _ => true) (Thread.start V 3 16) before).any (fun s =>
      decide (s.stack = [.user] ∧ s.panicked = none) &&
        (Epox.exec step (fun e a => decide (C e a)) s.exit actions).any P) = true) :
    ∃ e : Exiting V, ReachableUnder step IsExit C e ∧ P e = true := by
  obtain ⟨s, hr, hs⟩ := Thread.exists_reachable before _ hP
  obtain ⟨hback, hexit⟩ := Bool.and_eq_true_iff.mp hs
  obtain ⟨hstack, hp⟩ := of_decide_eq_true hback
  exact ReachableUnder.exists_run _ _ ⟨s, hr, hstack, hp, rfl⟩
    actions hexit

/-- A thread with two tasks and an `Fd` exits: the destructor of the first future drops the `Fd` and wakes
its own task, which is not alive any more. -/
theorem exit_completes_of_fd : ∃ e : Exiting Unit, ReachableUnder step IsStart Spares e ∧
    e.thread.log.head? = some (.discarded 1) ∧ e.denied = false ∧ e.thread.panicked = none ∧
      ∃ e', Relation.ReflTransGen GoesOn e e' ∧ e'.done = true := by
  obtain ⟨e, he, h⟩ := exists_exiting (V := Unit) Spares
    [.spawn .normal, .spawn .normal, .dropHandle 0, .dropHandle 1, .fdNew 5 1#32 true true]
    [.own (.go (.ok [])), .own (.fdDrop 0), .own (.wake (.task 0) (.ok [])), .own .finish,
      .own (.go (.ok [])), .own .finish]
    (fun e => decide (e.thread.log.head? = some (.discarded 1) ∧ e.thread.stack = [] ∧
      e.done = false)) (by decide)
  obtain ⟨hlog, hstack, hdone⟩ := of_decide_eq_true h
  have hstart := he.mono_start fun _ => IsExit.isStart
  obtain ⟨⟨hd, hp⟩, -, hends, -⟩ := exit_completes hstart
  exact ⟨e, hstart, hlog, hd, hp, hends hstack hdone⟩

/-- While a thread exits, `exec` panics if the destructor of a future wakes a task that is still queued,
and if it aborts one through its handle. -/
theorem denied_at_exit :
    (∃ e e' : Exiting Unit, Reachable step IsExit e ∧ e.thread.log.head? = some (.discarded 0) ∧
      e.thread.queues.home 1 = some (0, .runqNormal) ∧
        e.step (.own (.wake (.task 1) (.ok []))) = some e' ∧ e'.denied = true) ∧
    ∃ e e' : Exiting Unit, Reachable step IsExit e ∧ e.thread.log.head? = some (.discarded 0) ∧
      e.thread.queues.home 1 = some (0, .runqNormal) ∧
        e.step (.own (.abort 1)) = some e' ∧ e'.denied = true := by
  have hexit : ∀ a : ExitAction Unit, a = .own (.wake (.task 1) (.ok [])) ∨ a = .own (.abort 1) →
      ∃ e e' : Exiting Unit, Reachable step IsExit e ∧ e.thread.log.head? = some (.discarded 0) ∧
        e.thread.queues.home 1 = some (0, .runqNormal) ∧ e.step a = some e' ∧ e'.denied = true := by
    intro a ha
    obtain ⟨e, he, h⟩ := exists_exiting (V := Unit) (fun _ _ => True)
      [.spawn .normal, .spawn .normal, .dropHandle 0] [.own (.go (.ok []))]
      (fun e => decide (e.thread.log.head? = some (.discarded 0) ∧
        e.thread.queues.home 1 = some (0, .runqNormal)) &&
          (e.step a).any fun e' : Exiting Unit => e'.denied) (by rcases ha with rfl | rfl <;> decide)
    obtain ⟨hhome, hstep⟩ := Bool.and_eq_true_iff.mp h
    obtain ⟨e', hs, hdenied⟩ := (Option.any_eq_true _ _).mp hstep
    obtain ⟨hlog, hq⟩ := of_decide_eq_true hhome
    exact ⟨e, e', he, hlog, hq, hs, hdenied⟩
  exact ⟨hexit _ (.inl rfl), hexit _ (.inr rfl)⟩

end Exiting

end Epox

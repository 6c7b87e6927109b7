import Epox.Executor.Delivery

/-!
# Which steps wait for events

`Thread.waitsWith s a` is the answer of the kernel if the step `a` calls `epoll_wait(2)`, and
`Thread.reported s a` the events that it delivers.  What a step does to the `EpollWaker` of an `Fd` is
what it does as a call of `poll_with` on it, and the flags of the events it delivers (`step_ew`).
-/

namespace Epox

/-! ## Answers of the kernel -/

/-- The events of an answer. -/
def KernelAnswer.list : KernelAnswer → List EpollEvent
  | .ok evs => evs
  | .error _ => []

/-- The flags that the events set for an `Fd`. -/
def flagsFor (f : FdId) : List EpollEvent → EpollFlags
  | [] => 0
  | .pipe :: evs => flagsFor f evs
  | .fd g e :: evs => (if g = f then e else 0) ||| flagsFor f evs

/-- Set flags. -/
def EpollWaker.flag (ew : EpollWaker) (e : EpollFlags) : EpollWaker :=
  { ew with events := ew.events ||| e }

@[simp] lemma EpollWaker.flag_zero (ew : EpollWaker) : ew.flag 0#32 = ew := by
  simp [flag]

@[simp] lemma EpollWaker.flag_flag (ew : EpollWaker) (d e : EpollFlags) :
    (ew.flag d).flag e = ew.flag (d ||| e) := by
  simp [flag, BitVec.or_assoc]

/-- Setting flags that are set already. -/
lemma EpollWaker.flag_of_contains {ew : EpollWaker} {e : EpollFlags}
    (h : ew.events.contains e = true) : ew.flag e = ew := by
  have hand : ew.events &&& e = e := by simpa [EpollFlags.contains] using h
  have hor : ew.events ||| e = ew.events := by
    rw [← hand]
    ext i hi
    simpa using fun h _ => h
  rw [flag, hor]

/-- No flag is set for an `Fd` without events. -/
lemma flagsFor_of_not_mem {f : FdId} {evs : List EpollEvent} (h : ∀ e, .fd f e ∉ evs) :
    flagsFor f evs = 0 := by
  induction evs with
  | nil => rfl
  | cons ev evs ih =>
    have hrest := ih fun e he => h e (List.mem_cons_of_mem _ he)
    cases ev with
    | pipe => exact hrest
    | fd g e =>
      have hg : g ≠ f := by
        rintro rfl
        exact h e (List.mem_cons_self ..)
      simp [flagsFor, hg, hrest]

/-- The action with an answer of the kernel that reports nothing. -/
def Action.deaf {V : Type} : Action V → Action V
  | .go _ => .go (.error .other)
  | .wake w _ => .wake w (.error .other)
  | .pollWith f cx _ => .pollWith f cx (.error .other)
  | a => a

namespace Thread

variable {V : Type} {s s' : Thread V}

/-! ## Calls of `epoll_wait` -/

/-- A wake on this thread checks for events first: the task wakes itself. -/
def wakeWaits (s : Thread V) : Waker → Bool
  | .task t => s.alive t && (s.tasks t).pipeWr == s.executor.pipeWr && (s.tasks t).borrowed
  | _ => false

/-- The answer of the kernel if the step calls `epoll_wait`. -/
def waitsWith (s : Thread V) : Action V → Option KernelAnswer
  | .go k =>
    match s.stack with
    | .run .waitZero :: _ | .run .waitNone :: _ => some k
    | .blockOn _ .waitZero :: _ | .blockOn _ .waitNone :: _ => some k
    | .runTask _ (.wakeHandle w) :: _ => if s.wakeWaits w then some k else none
    | _ => none
  | .wake w k => if s.wakeWaits w then some k else none
  | .pollWith f cx k =>
    match (s.fds f).ew.pollWithEnter cx with
    | .yield _ => if s.wakeWaits cx ∧ (s.fds f).borrowed = false then some k else none
    | _ => none
  | _ => none

/-- The events that the step delivers. -/
def reported (s : Thread V) (a : Action V) : List EpollEvent :=
  match s.waitsWith a with
  | some k => k.list
  | none => []

/-! ## What the delivery of events does to an `Fd` -/

/-- Delivering an event leaves the executor alone. -/
lemma deliver_executor {f : FdId} {e : EpollFlags} (h : s.deliver f e = some s') :
    s'.executor = s.executor := by
  have henqueue : ∀ (s : Thread V) t, (s.enqueue t).executor = s.executor := by
    intro s t
    unfold enqueue
    split_ifs <;> rfl
  simp only [deliver] at h
  split_ifs at h
  · obtain rfl := Option.some.inj h
    rfl
  · split at h
    · obtain rfl := Option.some.inj h
      split_ifs
      · exact henqueue _ _
      · rfl
    · obtain rfl := Option.some.inj h
      rfl

/-- A pipe that holds a pointer can be read. -/
lemma wakeFromPipe_ne_none (h : s.executor.pipe ≠ []) : s.wakeFromPipe ≠ none := by
  intro hs
  simp only [wakeFromPipe] at hs
  split at hs
  · rename_i hnil
    exact h hnil
  · split at hs <;> simp at hs

/-- The loop over the events does not fail: the pipe is read at most once, and only if it holds a
pointer. -/
lemma wakeup_ne_err {evs : List EpollEvent} (hnodup : (evs.map EpollEvent.key).Nodup)
    (hpipe : .pipe ∈ evs → s.executor.pipe ≠ []) : s.wakeup evs ≠ .err s' := by
  induction evs generalizing s with
  | nil => simp [wakeup]
  | cons ev evs ih =>
    rw [List.map_cons, List.nodup_cons] at hnodup
    cases ev with
    | pipe =>
      have hnot : .pipe ∉ evs := fun hm => hnodup.1 (List.mem_map.mpr ⟨_, hm, rfl⟩)
      simp only [wakeup]
      split
      · exact ih hnodup.2 fun hm => absurd hm hnot
      · rename_i hs₁
        exact absurd hs₁ (wakeFromPipe_ne_none (hpipe (List.mem_cons_self ..)))
    | fd f e =>
      simp only [wakeup]
      split
      · rename_i s₁ hs₁
        refine ih hnodup.2 fun hm => ?_
        rw [deliver_executor hs₁]
        exact hpipe (List.mem_cons_of_mem _ hm)
      · simp

/-- Delivering an event sets its flags. -/
lemma deliver_ew {f : FdId} {e : EpollFlags} (h : s.deliver f e = some s') (g : FdId) :
    (s'.fds g).ew = (s.fds g).ew.flag (if f = g then e else 0) := by
  by_cases hg : f = g
  · subst hg
    rw [if_pos rfl]
    simp only [deliver] at h
    split_ifs at h with hb hc
    · obtain rfl := Option.some.inj h
      exact (EpollWaker.flag_of_contains hc).symm
    · have hset : ((s.setFd f { s.fds f with ew := (s.fds f).ew.flag e }).fds f).ew =
          (s.fds f).ew.flag e := by simp [setFd]
      split at h
      · obtain rfl := Option.some.inj h
        split_ifs
        · rw [(enqueue_frame _ _).1]
          exact hset
        · exact hset
      · obtain rfl := Option.some.inj h
        exact hset
  · rw [if_neg hg, (deliver_frame h).1 g (Ne.symm hg)]
    exact ((s.fds g).ew.flag_zero).symm

/-- The loop over the events sets their flags. -/
lemma wakeup_ew {evs : List EpollEvent} (h : s.wakeup evs = .ok s') (f : FdId) :
    (s'.fds f).ew = (s.fds f).ew.flag (flagsFor f evs) := by
  induction evs generalizing s with
  | nil =>
    obtain rfl : s = s' := by simpa [wakeup] using h
    exact ((s.fds f).ew.flag_zero).symm
  | cons ev evs ih =>
    cases ev with
    | pipe =>
      simp only [wakeup] at h
      split at h
      · rename_i s₁ hs₁
        rw [ih h, (wakeFromPipe_frame hs₁).1]
        rfl
      · simp at h
    | fd g e =>
      simp only [wakeup] at h
      split at h
      · rename_i s₁ hs₁
        rw [ih h, deliver_ew hs₁, EpollWaker.flag_flag]
        rfl
      · simp at h

/-- The loop over the events reads one pointer if the pipe is among them. -/
lemma wakeup_pipe {evs : List EpollEvent} (hnodup : (evs.map EpollEvent.key).Nodup)
    (h : s.wakeup evs = .ok s') :
    s'.executor.pipe = if .pipe ∈ evs then s.executor.pipe.tail else s.executor.pipe := by
  induction evs generalizing s with
  | nil =>
    obtain rfl : s = s' := by simpa [wakeup] using h
    rfl
  | cons ev evs ih =>
    rw [List.map_cons, List.nodup_cons] at hnodup
    cases ev with
    | pipe =>
      have hnot : .pipe ∉ evs := fun hm => hnodup.1 (List.mem_map.mpr ⟨_, hm, rfl⟩)
      simp only [wakeup] at h
      split at h
      · rename_i s₁ hs₁
        rw [ih hnodup.2 h, if_neg hnot, if_pos (List.mem_cons_self ..)]
        unfold wakeFromPipe at hs₁
        split at hs₁
        · simp at hs₁
        · rename_i p rest hpipe
          have hset : (s.setExec s.cur { s.executor with pipe := rest }).executor.pipe = rest := by
            simp [executor, setExec]
          rw [hpipe]
          split at hs₁
          · exact Option.some.inj hs₁ ▸ hset
          · rw [← Option.some.inj hs₁]
            split_ifs
            · unfold enqueue
              split_ifs <;> exact hset
            · exact hset
      · simp at h
    | fd f e =>
      have hmem : EpollEvent.pipe ∈ EpollEvent.fd f e :: evs ↔ EpollEvent.pipe ∈ evs := by simp
      simp only [wakeup] at h
      split at h
      · rename_i s₁ hs₁
        rw [ih hnodup.2 h, deliver_executor hs₁]
        exact if_congr hmem.symm rfl rfl
      · simp at h

/-- Unless it panics, `epoll_wait` goes through all events that the kernel reports. -/
lemma wakeup_of_epollWait {k : KernelAnswer} (hk : s.answers k) (hp : (s.epollWait k).panicked = none) :
    (k.list.map EpollEvent.key).Nodup ∧ s.wakeup k.list = .ok (s.epollWait k).memory := by
  cases k with
  | error e =>
    have hmem : (s.epollWait (.error e)).memory = s := by
      cases e <;> simp only [epollWait] <;> split <;> rfl
    rw [hmem]
    exact ⟨List.nodup_nil, rfl⟩
  | ok evs =>
    obtain ⟨hlen, hnodup, hreports, -⟩ := hk
    refine ⟨hnodup, ?_⟩
    unfold epollWait at hp ⊢
    split_ifs at hp ⊢ with h0
    · have hnil : evs = [] := by simpa [h0] using hlen
      subst hnil
      rfl
    · cases hs : s.wakeup evs with
      | ok s₁ =>
        simp only [hs]
        exact hs
      | err s₁ => exact absurd hs (wakeup_ne_err hnodup fun hm => hreports _ hm)
      | panic p s₁ => simp [hs, Outcome.panicked] at hp

/-- Unless it panics, `epoll_wait` sets the flags of all events that the kernel reports. -/
lemma epollWait_ew {k : KernelAnswer} (hk : s.answers k) (hp : (s.epollWait k).panicked = none)
    (f : FdId) : ((s.epollWait k).memory.fds f).ew = (s.fds f).ew.flag (flagsFor f k.list) :=
  wakeup_ew (wakeup_of_epollWait hk hp).2 f

/-- A wake that does not check for events does not depend on the answer of the kernel. -/
lemma wake_congr {w : Waker} (h : s.wakeWaits w = false) (k k' : KernelAnswer) :
    s.wake k w = s.wake k' w := by
  cases w with
  | task t =>
    simp only [wake, taskWake]
    split_ifs with halive hpipe hb
    · simp [wakeWaits, halive, hpipe, hb] at h
    · rfl
    · rfl
    · rfl
  | blockOn pipeWr b | noop | other j => rfl

/-- A step of library code that does not call `epoll_wait` does not depend on the answer of the kernel. -/
lemma go_congr {k : KernelAnswer} (h : s.waitsWith (.go k) = none) (k' : KernelAnswer) :
    s.go k = s.go k' := by
  unfold go
  split
  · rename_i pc rest hstack
    cases pc with
    | waitZero | waitNone => simp [waitsWith, hstack] at h
    | _ => rfl
  · rename_i t pc rest hstack
    cases pc with
    | wakeHandle w =>
      have hw : s.wakeWaits w = false := by simpa [waitsWith, hstack] using h
      simp only [goRunTask, wake_congr hw k k']
    | _ => rfl
  · rename_i b pc rest hstack
    cases pc with
    | waitZero | waitNone => simp [waitsWith, hstack] at h
    | _ => rfl
  · rfl

/-- The panic of a call shows in the thread. -/
lemma panicked_of_thread {o : Outcome V} (h : o.thread.panicked = none) :
    o.panicked = none ∧ o.thread = o.memory := by
  rcases outcome_thread o with ho | ⟨p, -, ho⟩
  · exact ho
  · simp [ho, Thread.panic] at h

/-- Setting the waker of an `Fd` does not change what the kernel may answer. -/
lemma answers_setFd {f : FdId} {ew : EpollWaker} {k : KernelAnswer} (hk : s.answers k) :
    (s.setFd f { s.fds f with ew := ew }).answers k := by
  have hraw : ∀ g, ((s.setFd f { s.fds f with ew := ew }).fds g).raw = (s.fds g).raw := by
    intro g
    by_cases hg : g = f <;> simp [setFd, hg]
  cases k with
  | ok evs =>
    obtain ⟨hlen, hnodup, hreports, hpipe⟩ := hk
    refine ⟨hlen, hnodup, fun ev hev => ?_, hpipe⟩
    have h := hreports ev hev
    cases ev with
    | pipe => exact h
    | fd g e => exact ⟨h.1, (hraw g).symm ▸ h.2⟩
  | error e => cases e <;> exact hk

/-- A poll that yields starts counting again. -/
lemma eq_of_yield {ew ew' : EpollWaker} {cx : Waker} (h : ew.pollWithEnter cx = .yield ew') :
    { ew with burst := 0 } = ew' := by
  simp only [EpollWaker.pollWithEnter] at h
  split_ifs at h
  exact PollEntry.yield.inj h

/-! ## Steps that deliver events -/

/-- A step that goes on from `s` only enqueues tasks, returns from calls and records what it has done. -/
def Resumes (s s' : Thread V) : Prop :=
  ∃ s₁, Effects s s₁ ∧ s₁.fds = s.fds ∧ s₁.execs = s.execs ∧ s₁.log <:+ s'.log ∧
    s' = { s₁ with stack := s'.stack, log := s'.log }

/-- Returning and recording what has been done. -/
lemma resumes_of_eq (hlog : s.log <:+ s'.log) (h : s' = { s with stack := s'.stack, log := s'.log }) :
    Resumes s s' :=
  ⟨s, .refl, rfl, rfl, hlog, h⟩

/-- A task that woke itself is enqueued after the events were delivered. -/
lemma resumes_enqueue {t : TaskId} (halive : s.alive t = true) (hlog : (s.enqueue t).log <:+ s'.log)
    (h : s' = { s.enqueue t with stack := s'.stack, log := s'.log }) : Resumes s s' := by
  refine ⟨s.enqueue t, enqueue_effects halive, (enqueue_frame s t).1, ?_, hlog, h⟩
  unfold enqueue
  split_ifs <;> rfl

/-- The memory when the step calls `epoll_wait`: a `poll_with` that yields has been noted. -/
def yielded (s : Thread V) : Action V → Thread V
  | .pollWith f _ _ => s.setFd f { s.fds f with ew := { (s.fds f).ew with burst := 0 } }
  | _ => s

/-- `epoll_wait` gets the answer `k` and returns in the memory `s₁`, from which the step goes on. -/
structure Waited (s : Thread V) (k : KernelAnswer) (s₁ s' : Thread V) : Prop where
  answers : s.answers k
  wait : s.epollWait k = .ok s₁ ∨ s.epollWait k = .err s₁
  after : Resumes s₁ s'

/-- A call of a waker that checks for events. -/
lemma Waited.of_wake {k : KernelAnswer} {w : Waker} (hw : s.wakeWaits w = true) (hk : s.answers k)
    (hp : (s.wake k w).panicked = none) : ∃ s₁ s₂, s.wake k w = .ok s₂ ∧ Waited s k s₁ s₂ ∧
      ∀ st, Waited s k s₁ (s₂.setStack st) := by
  cases w with
  | task t =>
    obtain ⟨⟨halive, hpipe⟩, hb⟩ : (s.alive t = true ∧ (s.tasks t).pipeWr = s.executor.pipeWr) ∧
        (s.tasks t).borrowed = true := by simpa [wakeWaits] using hw
    have heff := epollWait_effects s k
    have key : ∀ s₁, Effects s s₁ → (s.epollWait k = .ok s₁ ∨ s.epollWait k = .err s₁) →
        s.wake k (.task t) = .ok ((s₁.enqueue t).emit (.woken t)) →
        ∃ s₁ s₂, s.wake k (.task t) = .ok s₂ ∧ Waited s k s₁ s₂ ∧
          ∀ st, Waited s k s₁ (s₂.setStack st) := by
      intro s₁ heff hwait hs
      have halive₁ : s₁.alive t = true := heff.alive_congr.trans halive
      exact ⟨s₁, _, hs, ⟨hk, hwait, resumes_enqueue halive₁ (List.suffix_cons ..) rfl⟩, fun st =>
        ⟨hk, hwait, resumes_enqueue halive₁ (List.suffix_cons ..) rfl⟩⟩
    cases ho : s.epollWait k with
    | ok s₁ =>
      rw [ho] at heff
      refine key s₁ heff (.inl ho) ?_
      simp [wake, taskWake, halive, hpipe, hb, ho, Outcome.ignoreErr, Outcome.andThen]
    | err s₁ =>
      rw [ho] at heff
      refine key s₁ heff (.inr ho) ?_
      simp [wake, taskWake, halive, hpipe, hb, ho, Outcome.ignoreErr, Outcome.andThen]
    | panic p s₁ =>
      simp [wake, taskWake, halive, hpipe, hb, ho, Outcome.ignoreErr, Outcome.andThen,
        Outcome.panicked] at hp
  | blockOn pipeWr b | noop | other j => simp [wakeWaits] at hw

/-- Library code that calls `epoll_wait` without a panic delivers the events of the answer. -/
lemma waited_of_go {k k' : KernelAnswer} (hk : s.answers k) (h : s.go k = some s')
    (hp : s'.panicked = none) (hw : s.waitsWith (.go k) = some k') : ∃ s₁, Waited s k' s₁ s' := by
  unfold go at h
  split at h
  · rename_i pc rest hstack
    cases pc with
    | waitZero | waitNone =>
      obtain rfl : k = k' := by simpa [waitsWith, hstack] using hw
      simp only [goRun] at h
      cases ho : s.epollWait k with
      | ok s₁ =>
        simp only [ho, Option.some.injEq] at h
        exact ⟨s₁, hk, .inl ho, resumes_of_eq (h ▸ List.suffix_rfl) (h ▸ rfl)⟩
      | err s₁ =>
        simp only [ho, Option.some.injEq] at h
        exact ⟨s₁, hk, .inr ho, resumes_of_eq (h ▸ List.suffix_rfl) (h ▸ rfl)⟩
      | panic p s₁ =>
        simp only [ho, Option.some.injEq] at h
        simp [← h, Thread.panic] at hp
    | _ => simp [waitsWith, hstack] at hw
  · rename_i t pc rest hstack
    cases pc with
    | wakeHandle w =>
      obtain ⟨hww, rfl⟩ : s.wakeWaits w = true ∧ k = k' := by simpa [waitsWith, hstack] using hw
      have hpanic : (s.wake k w).panicked = none := by
        cases ho : s.wake k w with
        | ok s₁ | err s₁ => rfl
        | panic p s₁ =>
          simp only [goRunTask, ho, Option.some.injEq] at h
          simp [← h, Thread.panic] at hp
      obtain ⟨s₁, s₂, hs₂, -, hwaited⟩ := Waited.of_wake hww hk hpanic
      refine ⟨s₁, ?_⟩
      simp only [goRunTask, hs₂] at h
      cases w <;> exact Option.some.inj h ▸ hwaited _
    | _ => simp [waitsWith, hstack] at hw
  · rename_i b pc rest hstack
    cases pc with
    | waitZero | waitNone =>
      obtain rfl : k = k' := by simpa [waitsWith, hstack] using hw
      simp only [goBlockOn] at h
      cases ho : s.epollWait k with
      | ok s₁ =>
        simp only [ho, Option.some.injEq] at h
        exact ⟨s₁, hk, .inl ho, resumes_of_eq (h ▸ List.suffix_cons ..) (h ▸ rfl)⟩
      | err s₁ | panic p s₁ =>
        simp only [ho, Option.some.injEq] at h
        simp [← h, Thread.panic] at hp
    | _ => simp [waitsWith, hstack] at hw
  · simp at h

/-- So does a call of `poll_with` that yields. -/
lemma waited_of_pollWith {k k' : KernelAnswer} {f : FdId} {cx : Waker} (hk : s.answers k)
    (hp : (s.pollWith k f cx).thread.panicked = none) (hw : s.waitsWith (.pollWith f cx k) = some k') :
    ∃ s₁, Waited (s.yielded (.pollWith f cx k)) k' s₁ (s.pollWith k f cx).thread := by
  simp only [waitsWith] at hw
  split at hw
  · rename_i ew he
    split_ifs at hw with hww
    obtain rfl := Option.some.inj hw
    obtain rfl := eq_of_yield he
    have hpoll : s.pollWith k f cx = (s.yielded (.pollWith f cx k)).wake k cx := by
      simp [pollWith, hww.2, he, yielded]
    have hwaits : (s.yielded (.pollWith f cx k)).wakeWaits cx = true := by
      rw [← hww.1]
      cases cx <;> rfl
    rw [hpoll] at hp ⊢
    obtain ⟨s₁, s₂, hs₂, hwaited, -⟩ :=
      Waited.of_wake hwaits (answers_setFd hk) (panicked_of_thread hp).1
    rw [hs₂]
    exact ⟨s₁, hwaited⟩
  · simp at hw

/-- Every step that calls `epoll_wait` without a panic delivers the events of the answer. -/
theorem waited_of_step {a : Action V} {k : KernelAnswer} (h : s.step a = some s')
    (hp : s'.panicked = none) (hw : s.waitsWith a = some k) :
    ∃ s₁, Waited (s.yielded a) k s₁ s' := by
  cases (acts_of_step h).2 with
  | go k' hk hgo => exact waited_of_go hk hgo hp hw
  | wake w k' hu hknows hk =>
    obtain ⟨hww, rfl⟩ : s.wakeWaits w = true ∧ k' = k := by simpa [waitsWith] using hw
    obtain ⟨s₁, s₂, hs₂, hwaited, -⟩ := Waited.of_wake hww hk (panicked_of_thread hp).1
    rw [hs₂]
    exact ⟨s₁, hwaited⟩
  | pollWith f cx k' hu hk => exact waited_of_pollWith hk hp hw
  | _ => simp [waitsWith] at hw

/-! ## What a step does to an `Fd` -/

/-- A call of `poll_with` that does not check for events does not depend on the answer of the kernel. -/
lemma pollWith_congr {k : KernelAnswer} {f : FdId} {cx : Waker}
    (h : s.waitsWith (.pollWith f cx k) = none) (k' : KernelAnswer) :
    s.pollWith k f cx = s.pollWith k' f cx := by
  simp only [pollWith]
  split_ifs with hb
  · rfl
  · cases he : (s.fds f).ew.pollWithEnter cx with
    | yield ew =>
      have hw : s.wakeWaits cx = false := by simpa [waitsWith, he, hb] using h
      refine wake_congr (s := s.setFd f { s.fds f with ew := ew }) ?_ k k'
      rw [← hw]
      cases cx <;> rfl
    | pending ew | call => rfl

/-- A step that does not call `epoll_wait` does not depend on the answer of the kernel. -/
lemma step_deaf {a : Action V} (h : s.step a = some s') (hw : s.waitsWith a = none) :
    s.step a.deaf = some s' := by
  unfold step at h ⊢
  split_ifs at h ⊢
  cases a with
  | go k =>
    simp only [act] at h
    split_ifs at h
    rw [go_congr hw (.error .other)] at h
    simpa [Action.deaf, act, answers] using h
  | wake w k =>
    have hww : s.wakeWaits w = false := by simpa [waitsWith] using hw
    simp only [act] at h
    split_ifs at h with hk
    rw [wake_congr hww k (.error .other)] at h
    exact (if_pos ⟨hk.1, trivial⟩).trans h
  | pollWith f cx k =>
    simp only [act] at h
    split_ifs at h with hk
    rw [pollWith_congr hw (.error .other)] at h
    exact (if_pos ⟨hk.1, hk.2.1, trivial⟩).trans h
  | _ => exact h

/-- The `EpollWaker` of an `Fd` after what the step does as a call of `poll_with` on it. -/
def polledEw (s : Thread V) (a : Action V) (f : FdId) : EpollWaker :=
  match a with
  | .pollWith g cx _ =>
    if g = f then
      match (s.fds f).ew.pollWithEnter cx with
      | .pending ew | .yield ew => ew
      | .call => (s.fds f).ew
    else
      (s.fds f).ew
  | .closure r =>
    match s.stack with
    | .pollWith g cx :: _ =>
      if g = f then ((s.fds f).ew.pollWithReturn cx r).getD (s.fds f).ew else (s.fds f).ew
    | _ => (s.fds f).ew
  | _ => (s.fds f).ew

/-- What a call of `poll_with` that does not check for events does to its `Fd`. -/
lemma pollWith_polledEw {f : FdId} {cx : Waker} {k : KernelAnswer}
    (hp : (s.pollWith (.error .other) f cx).thread.panicked = none) :
    ((s.pollWith (.error .other) f cx).thread.fds f).ew = s.polledEw (.pollWith f cx k) f := by
  simp only [polledEw, if_true]
  by_cases hb : (s.fds f).borrowed = true
  · rw [pollWith, if_pos hb] at hp
    simp [Outcome.thread, Thread.panic] at hp
  · rw [pollWith, if_neg hb]
    cases he : (s.fds f).ew.pollWithEnter cx with
    | pending ew => simp [Outcome.thread, setFd]
    | yield ew =>
      have hnot : ¬ KernelAnswer.reports f (.error .other) := id
      have hkeeps := keepsFd_thread (wake_keepsFd hnot (s.setFd f { s.fds f with ew := ew }) cx)
      simpa [setFd] using congrArg Fd.ew hkeeps.1
    | call => simp [Outcome.thread, setFd, Thread.setStack]

/-- What a step does to the `EpollWaker` of an `Fd`: what it does as a call of `poll_with` on it, and then
setting the flags of the events that it delivers. -/
theorem step_ew {a : Action V} (h : s.step a = some s') (hp : s'.panicked = none) {f : FdId}
    (hf : ∀ raw events ctl, a = .fdNew raw events true ctl → f ≠ s.nFds) :
    (s'.fds f).ew = (s.polledEw a f).flag (flagsFor f (s.reported a)) := by
  by_cases hw : s.waitsWith a = none
  · have hzero : (s.polledEw a f).flag (flagsFor f (s.reported a)) = s.polledEw a f := by
      simp only [reported, hw]
      exact EpollWaker.flag_zero _
    have hdeaf := step_deaf h hw
    rw [hzero]
    by_cases ha : s.Spares f a.deaf
    · have hfd : ∀ raw events ctl, a.deaf = .fdNew raw events true ctl → f ≠ s.nFds := by
        cases a <;> simp_all [Action.deaf]
      rw [(step_keepsWaker hfd ha hdeaf).1]
      cases a with
      | pollWith g cx k => exact (if_neg ha.1).symm
      | closure r =>
        simp only [polledEw]
        split
        · rename_i g cx rest hstack
          refine (if_neg fun hg => ha cx rest ?_).symm
          rw [hstack, hg]
        · rfl
      | _ => rfl
    · cases a with
      | pollWith g cx k =>
        obtain rfl : g = f := by
          by_contra hg
          exact ha ⟨hg, id⟩
        cases (acts_of_step hdeaf).2
        exact pollWith_polledEw hp
      | closure r =>
        obtain ⟨cx, rest, hstack⟩ : ∃ cx rest, s.stack = .pollWith f cx :: rest := by
          simpa [Spares, Action.deaf] using ha
        have hact := act_of_step hdeaf
        simp only [Action.deaf, act, closure, hstack] at hact
        simp only [polledEw, hstack, if_true]
        cases hr : (s.fds f).ew.pollWithReturn cx r with
        | none =>
          simp only [hr, Option.some.injEq] at hact
          simp [← hact]
        | some ew =>
          simp only [hr, Option.some.injEq] at hact
          simp [← hact, setFd, Thread.setStack]
      | go k | wake w k => exact absurd id ha
      | _ => exact absurd trivial ha
  · obtain ⟨k, hk⟩ := Option.ne_none_iff_exists'.mp hw
    obtain ⟨s₁, hwaited⟩ := waited_of_step h hp hk
    have hew : ((s.yielded a).fds f).ew = s.polledEw a f := by
      cases a with
      | pollWith g cx k' =>
        simp only [waitsWith] at hk
        split at hk
        · rename_i ew he
          obtain rfl := eq_of_yield he
          by_cases hg : g = f
          · subst hg
            simp [yielded, polledEw, he, setFd]
          · simp [yielded, polledEw, hg, Ne.symm hg, setFd]
        · simp at hk
      | closure r => simp [waitsWith] at hk
      | _ => rfl
    obtain ⟨s₂, -, hfds, -, -, hs'⟩ := hwaited.after
    have hwait := epollWait_ew (f := f) hwaited.answers
    rw [show s'.fds = s₂.fds from hs' ▸ rfl, hfds, ← hew, reported, hk]
    rcases hwaited.wait with ho | ho <;> rw [ho] at hwait <;> exact hwait rfl

end Thread

end Epox

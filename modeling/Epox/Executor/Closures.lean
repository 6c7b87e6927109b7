import Epox.Executor.Waiting

/-!
# Closures that run

`EpollWaker::poll_with` calls the closure of the caller while the `EpollWaker` of the `Fd` is mutably
borrowed.  The closure may wake the task that is being polled or call `block_on`, and then the
`epoll_wait` inside it borrows the `EpollWaker` of every `Fd` that the kernel reports.
-/

namespace Epox

/-- The `Fd` whose closure an activation runs. -/
def Frame.closure : Frame → Option FdId
  | .pollWith f _ => some f
  | _ => none

/-- A loop that polls tasks runs no closure itself. -/
lemma Frame.closure_of_loop {f f' : Frame} (h : f.loop = some f') :
    f.closure = none ∧ f'.closure = none := by
  cases f with
  | run pc | blockOn b pc =>
    cases pc with
    | select => exact Option.some.inj h ▸ ⟨rfl, rfl⟩
    | _ => cases h
  | _ => cases h

namespace Thread

variable {V : Type} {s s' : Thread V}

/-! ## Panics of `epoll_wait` -/

/-- The effects of wakes borrow no `Fd`. -/
lemma Effects.fd_borrowed (h : Effects s s') (f : FdId) : (s'.fds f).borrowed = (s.fds f).borrowed :=
  (congrArg Fd.borrowed (h.untouched.fds f) :)

/-- The loop over the events panics exactly if there is an event for a borrowed `Fd`. -/
lemma wakeup_panicked_iff {evs : List EpollEvent} (hnodup : (evs.map EpollEvent.key).Nodup)
    (hpipe : .pipe ∈ evs → s.executor.pipe ≠ []) : (s.wakeup evs).panicked = none ↔
      ∀ f e, .fd f e ∈ evs → (s.fds f).borrowed = false := by
  induction evs generalizing s with
  | nil => simp [wakeup, Outcome.panicked]
  | cons ev evs ih =>
    rw [List.map_cons, List.nodup_cons] at hnodup
    cases ev with
    | pipe =>
      have hnot : .pipe ∉ evs := fun hm => hnodup.1 (List.mem_map.mpr ⟨_, hm, rfl⟩)
      simp only [wakeup]
      split
      · rename_i s₁ hs₁
        rw [ih hnodup.2 fun hm => absurd hm hnot, (wakeFromPipe_frame hs₁).1]
        simp
      · rename_i hs₁
        exact absurd hs₁ (wakeFromPipe_ne_none (hpipe (List.mem_cons_self ..)))
    | fd g e =>
      simp only [wakeup]
      split
      · rename_i s₁ hs₁
        have hfree : (s.fds g).borrowed = false := by
          by_contra hb
          simp [deliver, hb] at hs₁
        have hpipe₁ : .pipe ∈ evs → s₁.executor.pipe ≠ [] := by
          rw [deliver_executor hs₁]
          exact fun hm => hpipe (List.mem_cons_of_mem _ hm)
        rw [ih hnodup.2 hpipe₁]
        simp only [(deliver_effects hs₁).fd_borrowed, List.mem_cons, EpollEvent.fd.injEq]
        constructor
        · rintro h f e' (⟨rfl, -⟩ | hm)
          · exact hfree
          · exact h f e' hm
        · exact fun h f e' hm => h f e' (.inr hm)
      · rename_i hs₁
        have hb : (s.fds g).borrowed = true := by
          by_contra hb
          simp only [deliver, if_neg hb] at hs₁
          split_ifs at hs₁
          split at hs₁ <;> simp at hs₁
        simp only [Outcome.panicked, reduceCtorEq, false_iff]
        intro h
        simp [h g e (List.mem_cons_self ..)] at hb

/-- `epoll_wait` panics exactly if there is an event for a borrowed `Fd`. -/
lemma epollWait_panicked_iff {k : KernelAnswer} (hk : s.answers k) :
    (s.epollWait k).panicked = none ↔ ∀ f e, .fd f e ∈ k.list → (s.fds f).borrowed = false := by
  cases k with
  | error e => cases e <;> simp only [epollWait] <;> split <;> simp [Outcome.panicked, KernelAnswer.list]
  | ok evs =>
    obtain ⟨hlen, hnodup, hreports, -⟩ := hk
    unfold epollWait
    split_ifs with h0
    · have hnil : evs = [] := by simpa [h0] using hlen
      simp [hnil, KernelAnswer.list, Outcome.panicked]
    · exact wakeup_panicked_iff hnodup fun hm => hreports _ hm

/-- `epoll_wait` panics over nothing but a borrowed `Fd`. -/
lemma eq_wakerBorrowed_of_wakeup (evs : List EpollEvent) (s : Thread V) :
    ∀ p ∈ (s.wakeup evs).panicked, ∃ f, p = .wakerBorrowed f := by
  induction evs generalizing s with
  | nil => simp [wakeup, Outcome.panicked]
  | cons e evs ih =>
    cases e with
    | pipe =>
      simp only [wakeup]
      split
      · exact ih _
      · simp [Outcome.panicked]
    | fd f e =>
      simp only [wakeup]
      split
      · exact ih _
      · simp [Outcome.panicked]

/-- `epoll_wait` panics over nothing but a borrowed `Fd`. -/
lemma eq_wakerBorrowed_of_epollWait (s : Thread V) (k : KernelAnswer) :
    ∀ p ∈ (s.epollWait k).panicked, ∃ f, p = .wakerBorrowed f := by
  unfold epollWait
  split_ifs
  · simp [Outcome.panicked]
  · split
    · exact eq_wakerBorrowed_of_wakeup _ s
    · simp [Outcome.panicked]
    · simp [Outcome.panicked]

/-- Without a panic `epoll_wait` goes through all events of the answer. -/
lemma epollWait_ok {evs : List EpollEvent} (hk : s.answers (.ok evs))
    (hp : (s.epollWait (.ok evs)).panicked = none) : ∃ s₁, s.epollWait (.ok evs) = .ok s₁ := by
  obtain ⟨-, hnodup, hreports, -⟩ := hk
  cases ho : s.epollWait (.ok evs) with
  | ok s₁ => exact ⟨s₁, rfl⟩
  | err s₁ =>
    unfold epollWait at ho
    split_ifs at ho
    exact absurd ho (wakeup_ne_err hnodup fun hm => hreports _ hm)
  | panic p s₁ => simp [ho, Outcome.panicked] at hp

/-! ## Which `Fd`s are borrowed -/

/-- The `Fd`s whose closures are running, innermost first. -/
def inClosure (s : Thread V) : List FdId := s.stack.filterMap Frame.closure

/-- An `EpollWaker` is borrowed exactly while the closure of its `Fd` is running. -/
structure Lent (s : Thread V) : Prop where
  nodup : s.inClosure.Nodup
  borrowed : ∀ f, (s.fds f).borrowed = true ↔ f ∈ s.inClosure
  known : ∀ f ∈ s.inClosure, f < s.nFds
  fresh : ∀ f, s.nFds ≤ f → (s.fds f).live = false

/-- With other wakers in the `Fd`s. -/
lemma Lent.congr (h : s.Lent) (hstack : s'.inClosure = s.inClosure) (hn : s'.nFds = s.nFds)
    (hborrowed : ∀ f, (s'.fds f).borrowed = (s.fds f).borrowed)
    (hlive : ∀ f, (s.fds f).live = false → (s'.fds f).live = false) : s'.Lent where
  nodup := hstack ▸ h.nodup
  borrowed f := by rw [hborrowed, hstack, h.borrowed]
  known f hf := hn ▸ h.known f (hstack ▸ hf)
  fresh f hf := hlive f (h.fresh f (hn ▸ hf))

/-- After a change of no more than the effects of wakes. -/
lemma Lent.effects (h : s.Lent) (heff : Effects s s') : s'.Lent :=
  h.congr (by rw [inClosure, heff.steady.stack, inClosure]) heff.untouched.nFds heff.fd_borrowed
    fun f hf => (heff.untouched.live f).trans hf

/-- Only calls of `poll_with` and returns of their closures matter to what is on the stack. -/
lemma Lent.setStack (h : s.Lent) {fs : List Frame}
    (hfs : fs.filterMap Frame.closure = s.inClosure) : (s.setStack fs).Lent :=
  h.congr hfs rfl (fun _ => rfl) fun _ hf => hf

/-- A jump leaves the closures alone. -/
lemma Jump.closure {a : Action V} {f : Frame} {fs : List Frame} (h : Jump s a s' f fs) :
    fs.filterMap Frame.closure = [f].filterMap Frame.closure := by
  cases h with
  | enterRun hu => rw [List.filterMap_cons_none (by rfl)]
  | handleWake hpc heff => rcases hpc with rfl | rfl <;> rfl
  | runWaited hpc heff | runFailed hpc heff => rcases hpc with rfl | rfl <;> rfl
  | _ => rfl

/-- `Fd::new` touches no other `Fd`. -/
lemma fdNew_fds {f : FdId} (hf : f ≠ s.nFds) (raw : RawFd) (events : EpollFlags) (fcntl ctl : Bool) :
    (s.fdNew raw events fcntl ctl).fds f = s.fds f := by
  unfold fdNew epollAdd
  dsimp only
  split_ifs <;> simp [fdDrop, epollDel, setExec, setFd, emit, hf]

/-- A new `Fd` is not borrowed. -/
lemma fdNew_borrowed (hs : (s.fds s.nFds).borrowed = false) (raw : RawFd) (events : EpollFlags)
    (fcntl ctl : Bool) : ((s.fdNew raw events fcntl ctl).fds s.nFds).borrowed = false := by
  unfold fdNew epollAdd
  dsimp only
  split_ifs <;> simp [fdDrop, epollDel, setExec, setFd, emit, hs]

/-- `Fd::new` gives out a number, unless it fails at once. -/
lemma fdNew_nFds (s : Thread V) (raw : RawFd) (events : EpollFlags) (fcntl ctl : Bool) :
    s.nFds ≤ (s.fdNew raw events fcntl ctl).nFds ∧ (s.fdNew raw events fcntl ctl = s ∨
      (s.fdNew raw events fcntl ctl).nFds = s.nFds + 1) := by
  rcases fdNew_cases s raw events fcntl ctl with h | ⟨fd, interest, -, -, h | h⟩
  · exact ⟨by rw [h], .inl h⟩
  · exact ⟨h ▸ Nat.le_succ _, .inr (h ▸ rfl)⟩
  · exact ⟨h ▸ Nat.le_succ _, .inr (h ▸ rfl)⟩

/-- `Fd::new` borrows nothing. -/
lemma Lent.fdNew (h : s.Lent) (raw : RawFd) (events : EpollFlags) (fcntl ctl : Bool) :
    (s.fdNew raw events fcntl ctl).Lent := by
  have hstack : (s.fdNew raw events fcntl ctl).inClosure = s.inClosure := by
    rw [inClosure, (fdNew_steady s raw events fcntl ctl).stack, inClosure]
  have hnot : s.nFds ∉ s.inClosure := fun hm => lt_irrefl _ (h.known _ hm)
  obtain ⟨hle, hn⟩ := fdNew_nFds s raw events fcntl ctl
  refine ⟨hstack ▸ h.nodup, fun f => ?_, fun f hf => ?_, fun f hf => ?_⟩
  · rw [hstack]
    by_cases hf : f = s.nFds
    · subst hf
      have hb : (s.fds s.nFds).borrowed = false := by
        simpa using mt (h.borrowed _).mp hnot
      simp [fdNew_borrowed hb, hnot]
    · rw [fdNew_fds hf, h.borrowed]
  · exact (h.known f (hstack ▸ hf)).trans_le hle
  · rcases hn with hn | hn
    · rw [hn] at hf ⊢
      exact h.fresh f hf
    · have hlt : s.nFds < f := by omega
      rw [fdNew_fds hlt.ne']
      exact h.fresh f hlt.le

/-- The memory while the closure of an `Fd` that was not borrowed is running. -/
lemma Lent.enter (h : s.Lent) {f : FdId} {cx : Waker} (hlive : (s.fds f).live = true)
    (hb : (s.fds f).borrowed = false) :
    ((s.setFd f { s.fds f with borrowed := true }).setStack (.pollWith f cx :: s.stack)).Lent := by
  have hnot : f ∉ s.inClosure := fun hm => by simp [(h.borrowed f).mpr hm] at hb
  have hlt : f < s.nFds := by
    by_contra hge
    simp [h.fresh f (not_lt.mp hge)] at hlive
  have hstack : ((s.setFd f { s.fds f with borrowed := true }).setStack
      (.pollWith f cx :: s.stack)).inClosure = f :: s.inClosure := rfl
  refine ⟨hstack ▸ List.nodup_cons.mpr ⟨hnot, h.nodup⟩, fun g => ?_, fun g hg => ?_, fun g hg => ?_⟩
  · rw [hstack, List.mem_cons, ← h.borrowed]
    by_cases hg : g = f <;> simp [setFd, Thread.setStack, hg]
  · rw [hstack] at hg
    rcases List.mem_cons.mp hg with rfl | hg
    · exact hlt
    · exact h.known g hg
  · have hne : g ≠ f := (hlt.trans_le hg).ne'
    simpa [setFd, Thread.setStack, hne] using h.fresh g hg

/-- The memory after the closure of an `Fd` has returned. -/
lemma Lent.leave (h : s.Lent) {f : FdId} {cx : Waker} {rest : List Frame} {ew : EpollWaker}
    (hstack : s.stack = .pollWith f cx :: rest) :
    ((s.setFd f { s.fds f with ew := ew, borrowed := false }).setStack rest).Lent := by
  have hbefore : s.inClosure = f :: rest.filterMap Frame.closure := by
    rw [inClosure, hstack]
    rfl
  obtain ⟨hnot, hnodup⟩ := List.nodup_cons.mp (hbefore ▸ h.nodup)
  refine ⟨hnodup, fun g => ?_, fun g hg => ?_, fun g hg => ?_⟩
  · change _ ↔ g ∈ rest.filterMap Frame.closure
    by_cases hg : g = f
    · subst hg
      simpa [setFd, Thread.setStack] using hnot
    · have := h.borrowed g
      rw [hbefore, List.mem_cons] at this
      simpa [setFd, Thread.setStack, hg] using this
  · exact h.known g (hbefore ▸ List.mem_cons_of_mem _ hg)
  · by_cases hg' : g = f
    · simpa [setFd, Thread.setStack, hg'] using h.fresh f (hg' ▸ hg)
    · simpa [setFd, Thread.setStack, hg'] using h.fresh g hg

/-- A closure is only called while its `Fd` is not borrowed. -/
lemma not_borrowed_of_enter {f : FdId} {cx : Waker} {k : KernelAnswer}
    (hs : s.step (.pollWith f cx k) = some s') (hstack : s'.stack = .pollWith f cx :: s.stack) :
    (s.fds f).live = true ∧ (s.fds f).borrowed = false := by
  have hact := act_of_step hs
  simp only [act] at hact
  split_ifs at hact with hlive
  refine ⟨hlive.1, ?_⟩
  by_contra hb
  obtain ⟨-, rfl⟩ := call_eq_some.mp hact
  have hpoll : s.pollWith k f cx = .panic (.wakerBorrowed f) s := by simp [pollWith, hb]
  rw [hpoll] at hstack
  exact (List.cons_ne_self _ _).symm hstack

/-- Only calls of `poll_with` and returns of their closures matter to which closures are running. -/
lemma step_inClosure {a : Action V} (hs : s.step a = some s') (hpoll : ∀ f cx k, a ≠ .pollWith f cx k)
    (hclosure : ∀ r, a ≠ .closure r) : s'.inClosure = s.inClosure := by
  have key : ∀ fs : List Frame, fs.filterMap Frame.closure = s.inClosure → s'.stack = fs →
      s'.inClosure = s.inClosure := fun fs hfs hstack => by rw [inClosure, hstack, hfs]
  obtain ⟨-, hm⟩ := move_of_step hs
  cases hm with
  | stay hu heff => exact key s.stack rfl heff.steady.stack
  | @jump a s₁ f fs rest hstack hj =>
    refine key (fs ++ rest) ?_ rfl
    rw [List.filterMap_append, hj.closure, inClosure, hstack, ← List.filterMap_append,
      List.singleton_append]
  | crash heff hp => exact key s.stack rfl heff.steady.stack
  | @select k f f' rest t hstack hf hfront hb =>
    refine key (.runTask t .polling :: f' :: rest) ?_ rfl
    obtain ⟨hf₁, hf₂⟩ := Frame.closure_of_loop hf
    rw [inClosure, hstack, List.filterMap_cons_none hf₁, List.filterMap_cons_none (by rfl),
      List.filterMap_cons_none hf₂]
  | @selectCrash k f f' rest t hstack hf hfront hb =>
    refine key (f' :: rest) ?_ rfl
    obtain ⟨hf₁, hf₂⟩ := Frame.closure_of_loop hf
    rw [inClosure, hstack, List.filterMap_cons_none hf₁, List.filterMap_cons_none hf₂]
  | @repoll k s₁ b pc rest hstack hpc heff =>
    refine key (.blockOn b .polling :: rest) ?_ rfl
    rw [inClosure, hstack]
    rfl
  | complete hstack hfs =>
    refine key _ ?_ rfl
    rw [inClosure, hstack]
    rcases hfs with rfl | rfl <;> rfl
  | discard hstack hq hpc =>
    refine key _ ?_ rfl
    rw [inClosure, hstack]
    rcases hpc with rfl | rfl <;> rfl
  | pending hstack | sleep hstack hq | ready hstack | replace hstack hfd | close hstack =>
    refine key _ ?_ rfl
    rw [inClosure, hstack]
    rfl
  | spawn hu =>
    rw [Thread.spawn, enqueue_of_not_completed (by simp)]
    rfl
  | fdNew hu => exact key s.stack rfl (fdNew_steady s _ _ _ _).stack
  | blockOn hu => exact key (.blockOn s.nBlockOns .polling :: s.stack) rfl rfl
  | abort hu hh | handle hu hh he | shutdown hu | foreignUpgrade halive | fdDrop hu hlive =>
    exact key s.stack rfl rfl
  | enterPollWith hu => exact absurd rfl (hpoll _ _ _)
  | closure hstack => exact absurd rfl (hclosure _)
  | foreignWrite => exact key s.stack rfl (foreignWrite_effects s _).steady.stack
  | foreignBlockOn => exact key s.stack rfl (foreignBlockOn_effects s _).steady.stack

/-- Exactly the `Fd`s whose closures are running stay borrowed in every step. -/
lemma Lent.step (h : s.Lent) {a : Action V} (hs : s.step a = some s') : s'.Lent := by
  obtain ⟨-, hm⟩ := move_of_step hs
  cases hm with
  | stay hu heff => exact h.effects heff
  | jump hstack hj =>
    refine (h.effects hj.effects).setStack ?_
    rw [List.filterMap_append, hj.closure, inClosure, hj.effects.steady.stack, hstack,
      ← List.filterMap_append, List.singleton_append]
  | @crash a s₁ p heff hp =>
    exact (h.effects heff).congr rfl rfl (fun _ => rfl) fun _ hf => hf
  | repoll hstack hpc heff =>
    refine (h.effects heff).congr ?_ rfl (fun _ => rfl) fun _ hf => hf
    rw [inClosure, inClosure, heff.steady.stack, hstack]
    rfl
  | spawn hu =>
    rw [Thread.spawn, enqueue_of_not_completed (by simp)]
    exact h.congr rfl rfl (fun _ => rfl) fun _ hf => hf
  | handle hu hh he => exact h.congr rfl rfl (fun _ => rfl) fun _ hf => hf
  | fdNew hu => exact h.fdNew _ _ _ _
  | @fdDrop f hu hlive =>
    refine h.congr rfl rfl (fun g => ?_) fun g hg => ?_
    · by_cases hgf : g = f <;> simp [fdDrop, epollDel, setExec, setFd, emit, hgf]
    · by_cases hgf : g = f
      · simp [fdDrop, setFd, emit, hgf]
      · simpa [fdDrop, epollDel, setExec, setFd, emit, hgf] using hg
  | enterPollWith hu =>
    obtain ⟨hlive, hb⟩ := not_borrowed_of_enter hs rfl
    exact h.enter hlive hb
  | closure hstack => exact h.leave hstack
  | @foreignWrite t =>
    have h₁ : ({ s with waking := s.waking.erase t } : Thread V).Lent :=
      h.congr rfl rfl (fun _ => rfl) fun _ hf => hf
    exact h₁.effects (foreignWrite_effects s t)
  | foreignBlockOn => exact h.effects (foreignBlockOn_effects s _)
  | _ =>
    -- No `Fd` is touched, and no closure is called or returns.
    exact h.congr (step_inClosure hs (by simp) (by simp)) rfl (fun _ => rfl) fun _ hf => hf

/-- In every reachable state exactly the `Fd`s whose closures are running are borrowed. -/
lemma lent_of_reachable (h : Reachable step IsStart s) : s.Lent := by
  refine h.invariant ?_ fun s a s' _ ih _ hs => ih.step hs
  rintro s ⟨pipeWr, pipeCapacity, -, rfl⟩
  have hnil : (start V pipeWr pipeCapacity).inClosure = [] := rfl
  exact ⟨hnil ▸ List.nodup_nil, fun f => hnil ▸ ⟨nofun, nofun⟩,
    fun f hf => absurd hf (hnil ▸ List.not_mem_nil), fun _ _ => rfl⟩

/-! ## `epoll_wait` inside a closure -/

/-- A panic of a call shows in the thread. -/
lemma thread_panicked (o : Outcome V) (ho : o.memory.panicked = none) :
    o.thread.panicked = o.panicked := by
  cases o with
  | ok s | err s => exact ho
  | panic p s => rfl

/-- A wake that checks for events panics only where `epoll_wait` does. -/
lemma wake_panicked_of_waits {k : KernelAnswer} {w : Waker} (hw : s.wakeWaits w = true) :
    (s.wake k w).panicked = (s.epollWait k).panicked := by
  cases w with
  | task t =>
    obtain ⟨⟨halive, hpipe⟩, hb⟩ : (s.alive t = true ∧ (s.tasks t).pipeWr = s.executor.pipeWr) ∧
        (s.tasks t).borrowed = true := by simpa [wakeWaits] using hw
    simp only [wake, taskWake, if_pos halive, if_pos hpipe, if_pos hb]
    cases s.epollWait k <;> rfl
  | blockOn pipeWr b | noop | other j => simp [wakeWaits] at hw

/-- Library code that calls `epoll_wait` panics over a borrowed `Fd` exactly where `epoll_wait` does. -/
lemma goWaits_panicked {k k' : KernelAnswer} (hp : s.panicked = none) (h : s.go k = some s')
    (hw : s.waitsWith (.go k) = some k') :
    (∃ f, s'.panicked = some (.wakerBorrowed f)) ↔
      ∃ f, (s.epollWait k').panicked = some (.wakerBorrowed f) := by
  have hwait : (s.epollWait k).memory.panicked = none :=
    (epollWait_effects s k).steady.panicked.trans hp
  unfold go at h
  split at h
  · rename_i pc rest hstack
    cases pc with
    | waitZero | waitNone =>
      obtain rfl : k = k' := by simpa [waitsWith, hstack] using hw
      simp only [goRun] at h
      cases ho : s.epollWait k with
      | ok s₁ | err s₁ | panic p s₁ =>
        simp only [ho, Outcome.memory, Option.some.injEq] at h hwait
        subst h
        simp [Outcome.panicked, Thread.panic, Thread.setStack, hwait]
    | _ => simp [waitsWith, hstack] at hw
  · rename_i t pc rest hstack
    cases pc with
    | wakeHandle w =>
      obtain ⟨hww, rfl⟩ : s.wakeWaits w = true ∧ k = k' := by simpa [waitsWith, hstack] using hw
      have hmem : (s.wake k w).memory.panicked = none := (wake_effects s k w).steady.panicked.trans hp
      rw [← wake_panicked_of_waits hww]
      simp only [goRunTask] at h
      cases ho : s.wake k w with
      | ok s₁ | err s₁ =>
        simp only [ho, Outcome.memory] at h hmem
        cases w <;> obtain rfl := Option.some.inj h <;> simp [Outcome.panicked, Thread.setStack, hmem]
      | panic p s₁ =>
        simp only [ho, Option.some.injEq] at h
        simp [← h, Outcome.panicked, Thread.panic]
    | _ => simp [waitsWith, hstack] at hw
  · rename_i b pc rest hstack
    cases pc with
    | waitZero | waitNone =>
      obtain rfl : k = k' := by simpa [waitsWith, hstack] using hw
      simp only [goBlockOn] at h
      cases ho : s.epollWait k with
      | ok s₁ | err s₁ | panic p s₁ =>
        simp only [ho, Outcome.memory, Option.some.injEq] at h hwait
        subst h
        simp [Outcome.panicked, Thread.panic, Thread.setStack, Thread.emit, hwait]
    | _ => simp [waitsWith, hstack] at hw
  · simp at h

/-- A step that calls `epoll_wait` panics over a borrowed `Fd` exactly where `epoll_wait` does. -/
lemma waits_panicked {a : Action V} {k : KernelAnswer} (hs : s.step a = some s')
    (hw : s.waitsWith a = some k) : (s.yielded a).answers k ∧
      ((∃ f, s'.panicked = some (.wakerBorrowed f)) ↔
        ∃ f, ((s.yielded a).epollWait k).panicked = some (.wakerBorrowed f)) := by
  obtain ⟨hp, hacts⟩ := acts_of_step hs
  cases hacts with
  | go k' hk hgo =>
    refine ⟨?_, goWaits_panicked hp hgo hw⟩
    obtain rfl : k' = k := by
      simp only [waitsWith] at hw
      split at hw <;> (try split_ifs at hw) <;> first | exact Option.some.inj hw | cases hw
    exact hk
  | wake w k' hu hknows hk =>
    obtain ⟨hww, rfl⟩ : s.wakeWaits w = true ∧ k' = k := by simpa [waitsWith] using hw
    refine ⟨hk, ?_⟩
    rw [thread_panicked _ ((wake_effects s k' w).steady.panicked.trans hp),
      wake_panicked_of_waits hww]
    rfl
  | pollWith f cx k' hu hk =>
    simp only [waitsWith] at hw
    split at hw
    · rename_i ew he
      split_ifs at hw with hww
      obtain rfl := Option.some.inj hw
      obtain rfl := eq_of_yield he
      have hpoll : s.pollWith k' f cx = (s.yielded (.pollWith f cx k')).wake k' cx := by
        simp [pollWith, hww.2, he, yielded]
      have hwaits : (s.yielded (.pollWith f cx k')).wakeWaits cx = true := by
        rw [← hww.1]
        cases cx <;> rfl
      refine ⟨answers_setFd hk, ?_⟩
      have hmem : ((s.yielded (.pollWith f cx k')).wake k' cx).memory.panicked = none :=
        (wake_effects _ k' cx).steady.panicked.trans hp
      rw [hpoll, thread_panicked _ hmem, wake_panicked_of_waits hwaits]
    · simp at hw
  | _ => simp [waitsWith] at hw

/-- The check that a yielding `poll_with` makes does not borrow its `Fd` any more. -/
lemma yielded_borrowed (s : Thread V) (a : Action V) (f : FdId) :
    ((s.yielded a).fds f).borrowed = (s.fds f).borrowed := by
  cases a with
  | pollWith g cx k => by_cases hf : f = g <;> simp [yielded, setFd, hf]
  | _ => rfl

/-- An `epoll_wait`, inside whatever closures it is reached, goes through the whole batch of events
without a double borrow exactly if none of them is for an `Fd` whose closure is running. -/
theorem wait_in_closure_iff (h : Reachable step IsStart s) {a : Action V} {evs : List EpollEvent}
    (hs : s.step a = some s') (hw : s.waitsWith a = some (.ok evs)) :
    ((∀ f, s'.panicked ≠ some (.wakerBorrowed f)) ∧
      ∃ s₁, (s.yielded a).epollWait (.ok evs) = .ok s₁) ↔
        ∀ f e, .fd f e ∈ evs → ∀ cx, .pollWith f cx ∉ s.stack := by
  have hlent := lent_of_reachable h
  obtain ⟨hk, hpanic⟩ := waits_panicked hs hw
  have hborrowed : (∀ f e, .fd f e ∈ evs → ((s.yielded a).fds f).borrowed = false) ↔
      ∀ f e, .fd f e ∈ evs → ∀ cx, .pollWith f cx ∉ s.stack := by
    refine forall_congr' fun f => forall_congr' fun e => imp_congr_right fun _ => ?_
    rw [yielded_borrowed, ← Bool.not_eq_true, hlent.borrowed, inClosure, List.mem_filterMap]
    constructor
    · exact fun hnot cx hm => hnot ⟨_, hm, rfl⟩
    · rintro hnot ⟨fr, hm, hfr⟩
      cases fr with
      | pollWith g cx => exact hnot cx (Option.some.inj hfr ▸ hm)
      | _ => cases hfr
  have hnone : ((s.yielded a).epollWait (.ok evs)).panicked = none ↔
      ∀ f e, .fd f e ∈ evs → ((s.yielded a).fds f).borrowed = false := epollWait_panicked_iff hk
  rw [← hborrowed, ← hnone]
  constructor
  · rintro ⟨-, s₁, hok⟩
    exact congrArg Outcome.panicked hok
  · intro hnone
    refine ⟨fun f hf => ?_, epollWait_ok hk hnone⟩
    obtain ⟨g, hg⟩ := hpanic.mp ⟨f, hf⟩
    exact absurd (hg.symm.trans hnone) (by simp)

/-- A task that is being polled, with two `Fd`s, in the closure of the first one. -/
def inFirstClosure : List (Action Unit) :=
  [.spawn .normal, .run, .go (.ok []), .fdNew 5 .epollIn true true, .fdNew 6 .epollIn true true,
    .pollWith 0 (.task 0) (.ok [])]

/-- An event for the other `Fd`, delivered when the task wakes itself in the closure. -/
theorem wait_in_closure_of_other : ∃ s s' : Thread Unit, Reachable step IsStart s ∧
    .pollWith 0 (.task 0) ∈ s.stack ∧ s.step (.wake (.task 0) (.ok [.fd 1 .epollIn])) = some s' ∧
      ∀ f, s'.panicked ≠ some (.wakerBorrowed f) := by
  obtain ⟨s, hs, h⟩ := exists_reachable inFirstClosure
    (fun s => decide (s.stack = [.pollWith 0 (.task 0), .runTask 0 .polling, .run .afterTask, .user]) &&
      (s.step (.wake (.task 0) (.ok [.fd 1 .epollIn]))).isSome &&
      decide (s.waitsWith (.wake (.task 0) (.ok [.fd 1 .epollIn])) =
        some (.ok [.fd 1 .epollIn]))) (by decide)
  simp only [Bool.and_eq_true, decide_eq_true_eq] at h
  obtain ⟨⟨hstack, hsome⟩, hw⟩ := h
  obtain ⟨s', hs'⟩ := Option.isSome_iff_exists.mp hsome
  refine ⟨s, s', hs, by simp [hstack], hs', ((wait_in_closure_iff hs hs' hw).mpr ?_).1⟩
  intro f e hm cx
  obtain ⟨rfl, -⟩ : f = 1 ∧ e = .epollIn := by simpa using hm
  simp [hstack]

/-- An event for the `Fd` itself, delivered when the task wakes itself in the closure. -/
theorem wait_in_closure_panics : ∃ s s' : Thread Unit, Reachable step IsStart s ∧
    .pollWith 0 (.task 0) ∈ s.stack ∧
      s.waitsWith (.wake (.task 0) (.ok [.fd 0 .epollIn])) = some (.ok [.fd 0 .epollIn]) ∧
        s.step (.wake (.task 0) (.ok [.fd 0 .epollIn])) = some s' ∧
          s'.panicked = some (.wakerBorrowed 0) := by
  obtain ⟨s, hs, h⟩ := exists_reachable inFirstClosure
    (fun s => decide (Frame.pollWith 0 (.task 0) ∈ s.stack) &&
      decide (s.waitsWith (.wake (.task 0) (.ok [.fd 0 .epollIn])) =
        some (.ok [.fd 0 .epollIn])) &&
      (s.step (.wake (.task 0) (.ok [.fd 0 .epollIn]))).any
        fun s' : Thread Unit => decide (s'.panicked = some (.wakerBorrowed 0))) (by decide)
  simp only [Bool.and_eq_true, decide_eq_true_eq] at h
  obtain ⟨⟨hstack, hw⟩, hstep⟩ := h
  obtain ⟨s', hs', hp⟩ := (Option.any_eq_true _ _).mp hstep
  exact ⟨s, s', hs, hstack, hw, hs', of_decide_eq_true hp⟩

end Thread

end Epox

import Epox.Executor.Closures
import Epox.Executor.Readiness
import Epox.Foundation.Recurrence

/-!
# Bursts

A task that finds its `Fd`s always ready would never let another one run.  `EpollWaker::burst` counts the
calls of `poll_with` that have returned `Poll::Ready` since the last one that returned `Poll::Pending`, and
at `BURST_LIMIT` the call wakes its caller and returns `Poll::Pending` without a look at the descriptor.

An observer writes down the calls in the order in which they are made, each with what has become of it.
-/

namespace Epox

/-- What has become of a call of `poll_with`. -/
inductive CallState
  /-- The closure is running. -/
  | running
  /-- The call has returned `Poll::Pending`. -/
  | pending
  /-- The call has returned `Poll::Ready`. -/
  | ready
  deriving DecidableEq

/-- The calls of `poll_with`, newest first, with the `Fd`s they are made on. -/
abbrev Calls := List (FdId × CallState)

namespace Calls

/-- The newest call on the `Fd` returns. -/
def settle (f : FdId) (c : CallState) : Calls → Calls
  | [] => []
  | call :: calls => if call.1 = f then (f, c) :: calls else call :: settle f c calls

/-- The calls on one `Fd`. -/
def on (f : FdId) (calls : Calls) : Calls := calls.filter fun call => call.1 = f

@[simp] lemma on_nil (f : FdId) : on f [] = [] := rfl

@[simp] lemma on_cons_self (f : FdId) (c : CallState) (calls : Calls) :
    on f ((f, c) :: calls) = (f, c) :: calls.on f := by
  simp [on]

@[simp] lemma on_cons_of_ne {f g : FdId} (h : g ≠ f) (c : CallState) (calls : Calls) :
    on f ((g, c) :: calls) = calls.on f := by
  simp [on, h]

/-- When the newest call on an `Fd` returns, this is so among the calls on this `Fd`. -/
lemma on_settle_self {f : FdId} {c c' : CallState} {calls rest : Calls}
    (h : calls.on f = (f, c') :: rest) : on f (calls.settle f c) = (f, c) :: rest := by
  induction calls with
  | nil => simp at h
  | cons call calls ih =>
    obtain ⟨g, d⟩ := call
    by_cases hg : g = f
    · subst hg
      rw [on_cons_self] at h
      simp [settle, (List.cons.inj h).2]
    · rw [on_cons_of_ne hg] at h
      simp [settle, hg, ih h]

/-- When a call on another `Fd` returns, the calls on this one stay as they are. -/
lemma on_settle_of_ne {f g : FdId} (h : g ≠ f) (c : CallState) (calls : Calls) :
    on f (calls.settle g c) = calls.on f := by
  induction calls with
  | nil => rfl
  | cons call calls ih =>
    obtain ⟨i, d⟩ := call
    by_cases hi : i = g
    · simp [settle, hi, h]
    · by_cases hf : i = f
      · subst hf
        simp [settle, hi, ih]
      · simp [settle, hi, hf, ih]

/-- The call has returned `Poll::Pending`. -/
def IsPending (call : FdId × CallState) : Prop := call.2 = .pending

instance : DecidablePred IsPending := fun call => inferInstanceAs (Decidable (call.2 = .pending))

@[simp] lemma isPending_mk {f : FdId} {c : CallState} : IsPending (f, c) ↔ c = .pending := Iff.rfl

end Calls

/-- The three ways in which `EpollWaker::poll_with` goes on. -/
lemma EpollWaker.pollWithEnter_spec (ew : EpollWaker) (cx : Waker) :
    match ew.pollWithEnter cx with
    | .pending ew' => ew.events = 0 ∧ ew' = { ew with burst := 0, waker := cx }
    | .yield ew' => ew.events ≠ 0 ∧ burstLimit ≤ ew.burst ∧ ew' = { ew with burst := 0 }
    | .call => ew.events ≠ 0 ∧ ew.burst < burstLimit := by
  unfold pollWithEnter
  split_ifs with hev hlim
  · exact ⟨hev, rfl⟩
  · exact ⟨hev, hlim, rfl⟩
  · exact ⟨hev, not_le.mp hlim⟩

namespace Thread

variable {V : Type} {s s' : Thread V}

/-- The calls of `poll_with` after a step.  A call that panics is not one that returns. -/
def record (s : Thread V) (a : Action V) (s' : Thread V) (calls : Calls) : Calls :=
  match a with
  | .pollWith f cx _ =>
    if s'.panicked.isSome then
      calls
    else
      match (s.fds f).ew.pollWithEnter cx with
      | .pending _ | .yield _ => (f, .pending) :: calls
      | .call => (f, .running) :: calls
  | .closure r =>
    match s.stack with
    | .pollWith f _ :: _ =>
      match r with
      | .interrupted => calls
      | .wouldBlock => calls.settle f .pending
      | .done => calls.settle f .ready
    | _ => calls
  | _ => calls

/-! ## Wakes -/

/-- The waker has been invoked: this is in the history, and a task of the current executor that has not
completed is in its run queue. -/
structure Invoked (s s' : Thread V) (w : Waker) : Prop where
  recorded : ∃ l, s'.log = l ++ s.log ∧ ∀ e ∈ w.event, e ∈ l
  runnable : ∀ t, w = .task t → s.alive t = true → (s.tasks t).hasCompleted = false →
    (s.tasks t).pipeWr = s.executor.pipeWr → s'.runnable t

/-- A task that is enqueued and then noted as woken. -/
lemma invoked_of_enqueue {s₁ : Thread V} {t : TaskId} (heff : Effects s s₁) :
    Invoked s ((s₁.enqueue t).emit (.woken t)) (.task t) where
  recorded := by
    obtain ⟨l, hl, -⟩ := heff.untouched.log
    by_cases hc : (s₁.tasks t).hasCompleted = true
    · rw [enqueue_of_completed hc]
      exact ⟨.woken t :: l, by simp [emit, hl], by simp [Waker.event]⟩
    · rw [enqueue_of_not_completed (by simpa using hc)]
      exact ⟨.woken t :: .enqueued t :: l, by simp [emit, hl], by simp [Waker.event]⟩
  runnable u hu halive hc hpipe := by
    obtain rfl := Waker.task.inj hu
    exact runnable_enqueue (s := s₁) (by rwa [heff.steady.tasks])

/-- A wake that does not panic invokes the waker. -/
lemma invoked_of_wake {k : KernelAnswer} {w : Waker} (hp : (s.wake k w).panicked = none) :
    ∃ s', s.wake k w = .ok s' ∧ Invoked s s' w := by
  cases w with
  | task t =>
    simp only [wake, taskWake] at hp ⊢
    split_ifs at hp ⊢ with halive hpipe hb
    · have heff := epollWait_effects s k
      cases ho : s.epollWait k with
      | ok s₁ | err s₁ =>
        rw [ho] at heff
        exact ⟨_, rfl, invoked_of_enqueue heff⟩
      | panic p s₁ => simp [ho, Outcome.ignoreErr, Outcome.andThen, Outcome.panicked] at hp
    · exact ⟨_, rfl, invoked_of_enqueue .refl⟩
    · cases hw : s.write (s.tasks t).pipeWr (some t) with
      | some s₁ =>
        refine ⟨_, rfl, ⟨[.woken t], ?_, by simp [Waker.event]⟩, fun u hu _ _ hu' => ?_⟩
        · simp [emit, (write_written hw).log]
        · obtain rfl := Waker.task.inj hu
          exact absurd hu' hpipe
      | none => simp [hw, Outcome.panicked] at hp
    · refine ⟨_, rfl, ⟨[.woken t], rfl, by simp [Waker.event]⟩, fun u hu hal => ?_⟩
      obtain rfl := Waker.task.inj hu
      exact absurd hal halive
  | blockOn pipeWr b =>
    simp only [wake, blockOnWake] at hp ⊢
    split_ifs at hp ⊢ with hpipe
    · exact ⟨_, rfl, ⟨[.blockOnWoken b], rfl, by simp [Waker.event]⟩, by simp⟩
    · cases hw : s.write pipeWr none with
      | some s₁ =>
        refine ⟨_, rfl, ⟨[.blockOnWoken b], ?_, by simp [Waker.event]⟩, by simp⟩
        simp [emit, (write_written hw).log]
      | none => simp [hw, Outcome.panicked] at hp
  | noop => exact ⟨_, rfl, ⟨[], rfl, by simp [Waker.event]⟩, by simp⟩
  | other j => exact ⟨_, rfl, ⟨[.otherWoken j], rfl, by simp [Waker.event]⟩, by simp⟩

/-! ## What a call does -/

/-- A call of `poll_with` that does not panic finds the `Fd` not borrowed; then it returns, or it wakes its
caller and returns, or it calls the closure. -/
lemma pollWith_spec {f : FdId} {cx : Waker} {k : KernelAnswer}
    (hs : s.step (.pollWith f cx k) = some s') (hp : s'.panicked = none) :
    (s.fds f).live = true ∧ (s.fds f).borrowed = false ∧
      match (s.fds f).ew.pollWithEnter cx with
      | .pending ew => s' = s.setFd f { s.fds f with ew := ew }
      | .yield ew => (s.setFd f { s.fds f with ew := ew }).wake k cx = .ok s'
      | .call => s' = (s.setFd f { s.fds f with borrowed := true }).setStack (.pollWith f cx :: s.stack) := by
  have hact := act_of_step hs
  simp only [act] at hact
  split_ifs at hact with hlive
  obtain ⟨-, rfl⟩ := call_eq_some.mp hact
  have hb : (s.fds f).borrowed = false := by
    by_contra hb
    have hpoll : s.pollWith k f cx = .panic (.wakerBorrowed f) s := by simp [pollWith, hb]
    simp [hpoll, Outcome.thread, Thread.panic] at hp
  refine ⟨hlive.1, hb, ?_⟩
  have hnot : ¬ (s.fds f).borrowed = true := by simp [hb]
  simp only [pollWith, if_neg hnot] at hp ⊢
  cases he : (s.fds f).ew.pollWithEnter cx with
  | pending ew | call => rfl
  | yield ew =>
    simp only [he] at hp ⊢
    obtain ⟨s₁, hs₁, -⟩ := invoked_of_wake (panicked_of_thread hp).1
    rw [hs₁]
    rfl

/-- A step creates `Fd`s and forgets none. -/
lemma nFds_le_of_step {a : Action V} (h : s.step a = some s') : s.nFds ≤ s'.nFds := by
  rcases (move_of_step h).2.sameInterest with hs | ⟨raw, events, fcntl, ctl, -, rfl⟩ | ⟨g, rfl⟩ | ⟨hn, -⟩
  · exact hs.nFds.ge
  · exact (fdNew_nFds s raw events fcntl ctl).1
  · exact le_rfl
  · exact hn.ge

/-- The `Fd` whose closure is on top of the stack is borrowed. -/
lemma Lent.borrowed_of_calling (h : s.Lent) {f : FdId} (hf : s.calling = some f) :
    f ∈ s.inClosure ∧ (s.fds f).borrowed = true := by
  obtain ⟨cx, rest, hstack⟩ := stack_of_calling hf
  have hmem : f ∈ s.inClosure := by simp [inClosure, hstack, Frame.closure]
  exact ⟨hmem, (h.borrowed f).mpr hmem⟩

/-- An `Fd` on which a step makes no call, and of which it runs no closure, is lent as before. -/
lemma step_borrowed {a : Action V} (hl : s.Lent) (hs : s.step a = some s') (hp : s'.panicked = none)
    {f : FdId} (hpoll : ∀ cx k, a ≠ .pollWith f cx k)
    (hclosure : ∀ r, a = .closure r → s.calling ≠ some f) :
    (s'.fds f).borrowed = (s.fds f).borrowed := by
  cases (acts_of_step hs).2 with
  | pollWith g cx k hu hk =>
    have hg : f ≠ g := fun hfg => hpoll cx k (hfg ▸ rfl)
    obtain ⟨-, -, hspec⟩ := pollWith_spec hs hp
    split at hspec
    · rw [hspec]
      simp [setFd, hg]
    · rename_i ew _
      have heff := wake_effects (s.setFd g { s.fds g with ew := ew }) k cx
      rw [hspec, Outcome.memory] at heff
      rw [heff.fd_borrowed]
      simp [setFd, hg]
    · rw [hspec]
      simp [setFd, Thread.setStack, hg]
  | interrupted r hstack => rfl
  | @closure r g cx rest ew hstack hr =>
    have hg : f ≠ g := by
      rintro rfl
      exact hclosure r rfl (by simp [calling, hstack])
    simp [setFd, Thread.setStack, hg]
  | _ =>
    have hafter := (hl.step hs).borrowed f
    rewrite [step_inClosure hs (by simp) (by simp), ← hl.borrowed] at hafter
    exact Bool.eq_iff_iff.mpr hafter

/-! ## The counter -/

/-- The counter of a step. -/
lemma step_burst {a : Action V} (h : s.step a = some s') (hp : s'.panicked = none) {f : FdId}
    (hf : ∀ raw events ctl, a = .fdNew raw events true ctl → f ≠ s.nFds) :
    (s'.fds f).ew.burst = (s.polledEw a f).burst := by
  rw [step_ew h hp hf]
  rfl

/-- A step that makes no call on an `Fd` and runs no closure of it leaves its counter alone, and an `Fd`
that it creates starts with no count. -/
lemma step_burst_of_ne {a : Action V} (h : s.step a = some s') (hp : s'.panicked = none) {f : FdId}
    (hpoll : ∀ cx k, a ≠ .pollWith f cx k) (hclosure : ∀ r, a = .closure r → s.calling ≠ some f) :
    (s'.fds f).ew.burst = (s.fds f).ew.burst ∨ f = s.nFds ∧ (s'.fds f).ew.burst = 0 := by
  by_cases hnew : ∃ raw events ctl, a = .fdNew raw events true ctl ∧ f = s.nFds
  · obtain ⟨raw, events, ctl, rfl, rfl⟩ := hnew
    cases (acts_of_step h).2
    exact .inr ⟨rfl, by rw [(s.fdNew_spec raw events ctl).2.1]; rfl⟩
  · push Not at hnew
    rw [step_burst h hp hnew, polledEw_of_ne hpoll hclosure]
    exact .inl rfl

/-- The counter of an `Fd` is the number of the calls on it since the last one that returned
`Poll::Pending`, but for the one that is running. -/
structure Counted (s : Thread V) (calls : Calls) (f : FdId) : Prop where
  counts : streak Calls.IsPending (calls.on f) =
    (s.fds f).ew.burst + if (s.fds f).borrowed then 1 else 0
  recurs : RecursWithin burstLimit Calls.IsPending (calls.on f)
  fresh : s.nFds ≤ f → calls.on f = []

/-- A step that makes no call on the `Fd` and runs no closure of it. -/
lemma Counted.of_ne {calls : Calls} {f : FdId} (h : s.Counted calls f) {a : Action V} (hl : s.Lent)
    (hs : s.step a = some s') (hp : s'.panicked = none) (hpoll : ∀ cx k, a ≠ .pollWith f cx k)
    (hclosure : ∀ r, a = .closure r → s.calling ≠ some f) : s'.Counted (s.record a s' calls) f := by
  have hcalls : (s.record a s' calls).on f = calls.on f := by
    unfold record
    split
    · rename_i g cx k
      have hg : g ≠ f := by
        rintro rfl
        exact hpoll cx k rfl
      split_ifs
      · rfl
      · split <;> simp [hg]
    · rename_i r
      split
      · rename_i g cx rest hstack
        have hg : g ≠ f := by
          rintro rfl
          exact hclosure r rfl (by simp [calling, hstack])
        cases r with
        | interrupted => rfl
        | wouldBlock | done => exact Calls.on_settle_of_ne hg _ _
      · rfl
    · rfl
  refine ⟨?_, hcalls ▸ h.recurs, fun hf => hcalls ▸ h.fresh ((nFds_le_of_step hs).trans hf)⟩
  rw [hcalls, step_borrowed hl hs hp hpoll hclosure, h.counts]
  rcases step_burst_of_ne hs hp hpoll hclosure with hb | ⟨rfl, hb⟩
  · rw [hb]
  · have hnil := h.fresh le_rfl
    have hzero := h.counts
    rw [hnil, streak_nil] at hzero
    omega

/-- The newest call on the `Fd` has returned `Poll::Pending`. -/
lemma counted_of_pending {calls rest : Calls} {f : FdId} (hcalls : calls.on f = (f, .pending) :: rest)
    (hrest : RecursWithin burstLimit Calls.IsPending rest) (hburst : (s.fds f).ew.burst = 0)
    (hb : (s.fds f).borrowed = false) (hf : f < s.nFds) : s.Counted calls f := by
  have hstreak : streak Calls.IsPending (calls.on f) = 0 := by rw [hcalls, streak_cons_of_pos (by simp)]
  refine ⟨by simp [hstreak, hburst, hb], ?_, fun hge => absurd hf hge.not_gt⟩
  rw [hcalls, recursWithin_cons, ← hcalls, hstreak]
  exact ⟨Nat.zero_le _, hrest⟩

/-- The newest call on the `Fd` is running, or has returned `Poll::Ready`. -/
lemma counted_of_not_pending {calls rest : Calls} {c : CallState} {f : FdId}
    (hcalls : calls.on f = (f, c) :: rest) (hc : c ≠ .pending)
    (hrest : RecursWithin burstLimit Calls.IsPending rest)
    (hstreak : streak Calls.IsPending rest + 1 =
      (s.fds f).ew.burst + if (s.fds f).borrowed then 1 else 0)
    (hle : streak Calls.IsPending rest < burstLimit) (hf : f < s.nFds) : s.Counted calls f := by
  have hcons : streak Calls.IsPending (calls.on f) = streak Calls.IsPending rest + 1 := by
    rw [hcalls, streak_cons_of_neg (by simpa using hc)]
  refine ⟨hcons.trans hstreak, ?_, fun hge => absurd hf hge.not_gt⟩
  rw [hcalls, recursWithin_cons, ← hcalls, hcons]
  exact ⟨hle, hrest⟩

/-- A call of `poll_with` on the `Fd`. -/
lemma Counted.pollWith {calls : Calls} {f : FdId} (h : s.Counted calls f) (hl : s.Lent) {cx : Waker}
    {k : KernelAnswer} (hs : s.step (.pollWith f cx k) = some s') (hp : s'.panicked = none) :
    s'.Counted (s.record (.pollWith f cx k) s' calls) f := by
  obtain ⟨hlive, hb, hspec⟩ := pollWith_spec hs hp
  have henter := (s.fds f).ew.pollWithEnter_spec cx
  have hburst := step_burst hs hp (f := f) (by simp)
  have hstreak := h.counts
  have hnone : ¬ s'.panicked.isSome := by simp [hp]
  have hlt : f < s'.nFds := by
    refine lt_of_lt_of_le ?_ (nFds_le_of_step hs)
    by_contra hge
    simp [hl.fresh f (not_lt.mp hge)] at hlive
  simp only [hb, Bool.false_eq_true, if_false, add_zero] at hstreak
  simp only [polledEw, if_true] at hburst
  simp only [record, if_neg hnone]
  cases he : (s.fds f).ew.pollWithEnter cx with
  | pending ew =>
    simp only [he] at henter hburst hspec
    refine counted_of_pending (Calls.on_cons_self ..) h.recurs (by rw [hburst, henter.2]) ?_ hlt
    simp [hspec, setFd, hb]
  | yield ew =>
    simp only [he] at henter hburst hspec
    have heff := wake_effects (s.setFd f { s.fds f with ew := ew }) k cx
    rw [hspec, Outcome.memory] at heff
    refine counted_of_pending (Calls.on_cons_self ..) h.recurs (by rw [hburst, henter.2.2]) ?_ hlt
    rw [heff.fd_borrowed]
    simp [setFd, hb]
  | call =>
    simp only [he] at henter hburst hspec
    refine counted_of_not_pending (Calls.on_cons_self ..) (by simp) h.recurs ?_ ?_ hlt
    · rw [hstreak, hburst, hspec]
      simp [setFd, Thread.setStack]
    · rw [hstreak]
      exact henter.2

/-- The call whose closure is running is the newest one on its `Fd`. -/
lemma Counted.exists_of_borrowed {calls : Calls} {f : FdId} (h : s.Counted calls f)
    (hb : (s.fds f).borrowed = true) : ∃ c rest, calls.on f = (f, c) :: rest ∧ c ≠ .pending ∧
      streak Calls.IsPending rest = (s.fds f).ew.burst ∧
        RecursWithin burstLimit Calls.IsPending rest ∧ (s.fds f).ew.burst < burstLimit := by
  have hstreak := h.counts
  have hrecurs := h.recurs
  rw [hb, if_pos rfl] at hstreak
  cases hcalls : calls.on f with
  | nil =>
    rw [hcalls, streak_nil] at hstreak
    omega
  | cons call rest =>
    obtain ⟨g, c⟩ := call
    obtain rfl : g = f := by
      have hmem : (g, c) ∈ calls.on f := by simp [hcalls]
      simpa using (List.mem_filter.mp hmem).2
    have hc : c ≠ .pending := by
      rintro rfl
      rw [hcalls, streak_cons_of_pos (by simp)] at hstreak
      omega
    rw [hcalls, recursWithin_cons, ← hcalls, hstreak] at hrecurs
    rw [hcalls, streak_cons_of_neg (by simpa using hc)] at hstreak
    exact ⟨c, rest, rfl, hc, by omega, hrecurs.2, by omega⟩

/-- The closure of the `Fd` returns. -/
lemma Counted.closure {calls : Calls} {f : FdId} (h : s.Counted calls f) (hl : s.Lent) {r : IoResult}
    (hs : s.step (.closure r) = some s') (hf : s.calling = some f) :
    s'.Counted (s.record (.closure r) s' calls) f := by
  obtain ⟨hmem, hb⟩ := hl.borrowed_of_calling hf
  obtain ⟨cx, rest, hstack⟩ := stack_of_calling hf
  obtain ⟨c, prior, hcalls, hc, hstreak, hrecurs, hlt⟩ := h.exists_of_borrowed hb
  have hact := act_of_step hs
  simp only [act, Thread.closure, hstack] at hact
  simp only [record, hstack]
  cases r with
  | interrupted =>
    obtain rfl := Option.some.inj hact
    exact h
  | wouldBlock =>
    obtain rfl := Option.some.inj hact
    refine counted_of_pending (Calls.on_settle_self hcalls) hrecurs ?_ ?_ (hl.known f hmem) <;>
      simp [setFd, Thread.setStack]
  | done =>
    obtain rfl := Option.some.inj hact
    refine counted_of_not_pending (Calls.on_settle_self hcalls) (by simp) hrecurs ?_ (by omega)
      (hl.known f hmem)
    simp [setFd, Thread.setStack, hstreak]

/-- Every step counts. -/
lemma Counted.step {calls : Calls} {f : FdId} (h : s.Counted calls f) (hl : s.Lent) {a : Action V}
    (hs : s.step a = some s') (hp : s'.panicked = none) : s'.Counted (s.record a s' calls) f := by
  by_cases hpoll : ∃ cx k, a = .pollWith f cx k
  · obtain ⟨cx, k, rfl⟩ := hpoll
    exact h.pollWith hl hs hp
  · by_cases hclosure : ∃ r, a = .closure r ∧ s.calling = some f
    · obtain ⟨r, rfl, hf⟩ := hclosure
      exact h.closure hl hs hf
    · push Not at hpoll hclosure
      exact h.of_ne hl hs hp hpoll hclosure

/-- In every reachable state that has not panicked the counters count. -/
lemma counted_of_reachable {C : Thread V × Calls → Action V → Prop} {p : Thread V × Calls}
    (h : ReachableUnder (observe step record) (fun p => p.1.IsStart ∧ p.2 = []) C p)
    (hp : p.1.panicked = none) (f : FdId) : p.1.Counted p.2 f := by
  refine h.invariant (P := fun p => p.1.panicked = none → ∀ f, p.1.Counted p.2 f) ?_ ?_ hp f
  · rintro ⟨s, calls⟩ ⟨⟨pipeWr, pipeCapacity, -, rfl⟩, rfl⟩ - f
    exact ⟨rfl, recursWithin_nil, fun _ => rfl⟩
  · rintro p a p' hr ih - hs hp f
    obtain ⟨hstep, hcalls⟩ := observe_eq_some.mp hs
    rw [hcalls]
    exact (ih (acts_of_step hstep).1 f).step (lent_of_reachable hr.of_observe) hstep hp

/-- A step that panics records nothing. -/
lemma record_of_panicked {a : Action V} (hs : s.step a = some s') (hp : s'.panicked ≠ none)
    (calls : Calls) : s.record a s' calls = calls := by
  have hn := (acts_of_step hs).1
  unfold record
  split
  · rw [if_pos (Option.isSome_iff_ne_none.mpr hp)]
  · cases (acts_of_step hs).2 <;> exact absurd hn hp
  · rfl

/-- Among any `BURST_LIMIT + 1` consecutive calls on one `Fd` one has returned `Poll::Pending`. -/
lemma recurs_of_reachable {C : Thread V × Calls → Action V → Prop} {p : Thread V × Calls}
    (h : ReachableUnder (observe step record) (fun p => p.1.IsStart ∧ p.2 = []) C p) (f : FdId) :
    RecursWithin burstLimit Calls.IsPending (p.2.on f) := by
  cases h with
  | init h =>
    rw [h.2]
    exact recursWithin_nil
  | @next p₀ _ a h hC hs =>
    obtain ⟨hstep, hcalls⟩ := observe_eq_some.mp hs
    by_cases hp : p.1.panicked = none
    · exact (counted_of_reachable (.next h hC hs) hp f).recurs
    · rw [hcalls, record_of_panicked hstep hp]
      exact (counted_of_reachable h (acts_of_step hstep).1 f).recurs

/-! ## After a yield -/

/-- The next call on the `Fd` will invoke the closure. -/
structure Due (s : Thread V) (f : FdId) : Prop where
  known : f < s.nFds
  events : (s.fds f).ew.events ≠ 0
  burst : (s.fds f).ew.burst < burstLimit
  borrowed : (s.fds f).borrowed = false

/-- The call invokes the closure. -/
lemma Due.call {f : FdId} (h : s.Due f) {cx : Waker} {k : KernelAnswer}
    (hs : s.step (.pollWith f cx k) = some s') : s'.stack = .pollWith f cx :: s.stack := by
  have henter : (s.fds f).ew.pollWithEnter cx = .call := by
    rw [EpollWaker.pollWithEnter, if_neg h.events, if_neg h.burst.not_ge]
  have hnot : ¬ (s.fds f).borrowed = true := by simp [h.borrowed]
  cases (acts_of_step hs).2
  rw [pollWith, if_neg hnot, henter]
  rfl

/-- This stays so until the next call. -/
lemma Due.step {f : FdId} (h : s.Due f) (hl : s.Lent) {a : Action V} (hs : s.step a = some s')
    (hp : s'.panicked = none) (hpoll : ∀ cx k, a ≠ .pollWith f cx k) : s'.Due f := by
  have hclosure : ∀ r, a = .closure r → s.calling ≠ some f := fun _ _ hc => by
    simpa [h.borrowed] using (hl.borrowed_of_calling hc).2
  refine ⟨h.known.trans_le (nFds_le_of_step hs), ?_, ?_, ?_⟩
  · rw [step_ew hs hp fun _ _ _ _ => h.known.ne]
    simp only [EpollWaker.flag, polledEw_events fun ha => hclosure _ ha]
    exact fun h0 => h.events (BitVec.or_eq_zero_iff.mp h0).1
  · rcases step_burst_of_ne hs hp hpoll hclosure with hb | ⟨hf, -⟩
    · rw [hb]
      exact h.burst
    · exact absurd hf h.known.ne
  · rw [step_borrowed hl hs hp hpoll hclosure]
    exact h.borrowed

/-- This stays so over every run without a call on the `Fd`. -/
lemma Due.of_run {s₀ : Thread V} {f : FdId} (h : s₀.Due f) (hl : s₀.Lent)
    (hrun : ReachableUnder Thread.step (· = s₀) (fun _ a => ∀ cx k, a ≠ .pollWith f cx k) s)
    (hp : s.panicked = none) : s.Due f := by
  refine (hrun.invariant (P := fun u => u.Lent ∧ (u.panicked = none → u.Due f)) ?_ ?_).2 hp
  · rintro u rfl
    exact ⟨hl, fun _ => h⟩
  · rintro u a u' - ⟨hlu, hu⟩ hpoll hs
    exact ⟨hlu.step hs, fun hp => (hu (acts_of_step hs).1).step hlu hs hp hpoll⟩

/-- A call of `poll_with` on the `Fd` has returned `Poll::Pending` because of the burst limit: the waker of
the caller has been invoked, the flags are those before the call and those that the wake has delivered,
and the next call invokes the closure. -/
structure BurstEnds (s : Thread V) (f : FdId) (cx : Waker) (k : KernelAnswer) (s' : Thread V) : Prop where
  returned : s'.stack = s.stack
  invoked : Invoked s s' cx
  events : (s'.fds f).ew.events =
    (s.fds f).ew.events ||| flagsFor f (s.reported (.pollWith f cx k))
  nonempty : (s'.fds f).ew.events ≠ 0
  next : ∀ u, ReachableUnder step (· = s') (fun _ a => ∀ cx k, a ≠ .pollWith f cx k) u →
    ∀ cx' k' u', u.step (.pollWith f cx' k') = some u' → u'.stack = .pollWith f cx' :: u.stack

/-- A call that reaches the burst limit. -/
lemma burstEnds_of_step (hl : s.Lent) {f : FdId} {cx : Waker} {k : KernelAnswer}
    (hs : s.step (.pollWith f cx k) = some s') (hp : s'.panicked = none)
    (hev : (s.fds f).ew.events ≠ 0) (hlim : burstLimit ≤ (s.fds f).ew.burst) : BurstEnds s f cx k s' := by
  have henter : (s.fds f).ew.pollWithEnter cx = .yield { (s.fds f).ew with burst := 0 } := by
    rw [EpollWaker.pollWithEnter, if_neg hev, if_pos hlim]
  obtain ⟨hlive, hb, hspec⟩ := pollWith_spec hs hp
  have hew := step_ew hs hp (f := f) (by simp)
  simp only [henter] at hspec
  simp only [polledEw, henter, if_true, EpollWaker.flag] at hew
  have heff := wake_effects (s.setFd f { s.fds f with ew := { (s.fds f).ew with burst := 0 } }) k cx
  obtain ⟨s₁, hs₁, hinvoked⟩ := invoked_of_wake (k := k) (w := cx)
    (s := s.setFd f { s.fds f with ew := { (s.fds f).ew with burst := 0 } }) (by rw [hspec]; rfl)
  obtain rfl : s₁ = s' := Outcome.ok.inj (hs₁.symm.trans hspec)
  rw [hspec, Outcome.memory] at heff
  have hnonempty : (s₁.fds f).ew.events ≠ 0 := by
    rw [hew]
    exact fun h0 => hev (BitVec.or_eq_zero_iff.mp h0).1
  have hdue : s₁.Due f := by
    refine ⟨?_, hnonempty, ?_, ?_⟩
    · refine lt_of_lt_of_le ?_ (nFds_le_of_step hs)
      by_contra hge
      simp [hl.fresh f (not_lt.mp hge)] at hlive
    · rw [hew]
      exact Nat.zero_lt_succ 19
    · rw [heff.fd_borrowed]
      simpa [setFd] using hb
  refine ⟨heff.steady.stack, ⟨hinvoked.recorded, hinvoked.runnable⟩, by rw [hew], hnonempty, ?_⟩
  intro u hu cx' k' u' hs'
  exact (hdue.of_run (hl.step hs) hu (acts_of_step hs').1).call hs'

/-- Among any `20 * k + 1` consecutive calls of `poll_with` on `k` `Fd`s one has returned `Poll::Pending`,
whatever the closures return and whatever events are delivered in between.  A call that returns
`Poll::Pending` because of the burst limit invokes the waker of its caller and clears no flag of the `Fd`: to
those before the call it adds those that the `epoll_wait` inside that wake delivers, so that there are some,
and the next call on the `Fd` invokes its closure. -/
theorem bursts_end {p : Thread V × Calls}
    (h : Reachable (observe step record) (fun p => p.1.IsStart ∧ p.2 = []) p) :
    (∀ (S : Finset FdId) (w : Calls), w <:+: p.2.filter (fun call => call.1 ∈ S) →
      20 * S.card < w.length → ∃ call ∈ w, call.2 = .pending) ∧
    ∀ f cx k s', p.1.step (.pollWith f cx k) = some s' → s'.panicked = none →
      (p.1.fds f).ew.events ≠ 0 → burstLimit ≤ (p.1.fds f).ew.burst → BurstEnds p.1 f cx k s' := by
  refine ⟨fun S => ?_, fun f cx k s' hs hp hev hlim => ?_⟩
  · exact RecursWithin.of_labels fun f _ => recurs_of_reachable h f
  · exact burstEnds_of_step (lent_of_reachable h.of_observe) hs hp hev hlim

/-- A task reads from an `Fd` that is always ready: it has yielded once, and it will do so again. -/
theorem bursts_end_for_reader : ∃ (p : Thread Unit × Calls) (s' : Thread Unit),
    Reachable (observe step record) (fun p => p.1.IsStart ∧ p.2 = []) p ∧
      (∃ call ∈ p.2.filter (fun call => call.1 ∈ ({0} : Finset FdId)), call.2 = .pending) ∧
        p.1.step (.pollWith 0 (.task 0) (.ok [])) = some s' ∧
          BurstEnds p.1 0 (.task 0) (.ok []) s' := by
  obtain ⟨p, hp, h⟩ := exists_observed (V := Unit) record [] (fun _ _ => True)
    ([.spawn .normal, .run, .go (.ok []), .fdNew 7 1 true true] ++
      (List.replicate 20 [.pollWith 0 (.task 0) (.ok []), .closure .done]).flatten ++
        [.pollWith 0 (.task 0) (.ok [])] ++
          (List.replicate 20 [.pollWith 0 (.task 0) (.ok []), .closure .done]).flatten)
    (fun p => (p.1.step (.pollWith 0 (.task 0) (.ok []))).any fun s' : Thread Unit => decide (
      20 * ({0} : Finset FdId).card < (p.2.filter fun call => call.1 ∈ ({0} : Finset FdId)).length ∧
        s'.panicked = none ∧ (p.1.fds 0).ew.events ≠ 0 ∧ burstLimit ≤ (p.1.fds 0).ew.burst))
    (by decide +kernel)
  obtain ⟨s', hs, h⟩ := (Option.any_eq_true _ _).mp h
  obtain ⟨hlen, hn, hev, hlim⟩ := of_decide_eq_true h
  obtain ⟨hpending, hyields⟩ := bursts_end hp
  exact ⟨p, s', hp, hpending {0} _ List.infix_rfl hlen, hs, hyields 0 _ _ s' hs hn hev hlim⟩

/-- A task that reads from an `Fd` reaches the burst limit just when the peer hangs up: the `epoll_wait` with
which it wakes itself delivers the event, and the flags of the `Fd` are not those before the call. -/
theorem flags_change_while_yielding : ∃ s s' : Thread Unit, Reachable step IsStart s ∧
    s.step (.pollWith 0 (.task 0) (.ok [.fd 0 16])) = some s' ∧ s'.panicked = none ∧
      burstLimit ≤ (s.fds 0).ew.burst ∧ (s.fds 0).ew.events = 1 ∧ (s'.fds 0).ew.events = 17 := by
  obtain ⟨s, hs, h⟩ := exists_reachable (V := Unit)
    ([.spawn .normal, .run, .go (.ok []), .fdNew 7 1 true true] ++
      (List.replicate 20 [.pollWith 0 (.task 0) (.ok []), .closure .done]).flatten)
    (fun s => (s.step (.pollWith 0 (.task 0) (.ok [.fd 0 16]))).any fun s' : Thread Unit => decide (
      s'.panicked = none ∧ burstLimit ≤ (s.fds 0).ew.burst ∧ (s.fds 0).ew.events = 1 ∧
        (s'.fds 0).ew.events = 17)) (by decide +kernel)
  obtain ⟨s', hstep, h⟩ := (Option.any_eq_true _ _).mp h
  exact ⟨s, s', hs, hstep, of_decide_eq_true h⟩

end Thread

end Epox

import Epox.Executor.Bursts
import Epox.Executor.Queueing
import Epox.Executor.Yielding

/-!
# Steps that are not about an `Fd`

What a step leaves alone of an `Fd` on which it makes no call (`Epoll.FdKept`).  A waker that a poll has left
with the `Fd` stays there until an event is delivered; then it is gone, and `epoll_wait` has enqueued its
task.  So a task that can be woken and has not been enqueued since such a poll still has its waker with the
`Fd`.
-/

namespace Epox

/-- The task of the waker. -/
def Waker.taskId : Waker → Option TaskId
  | .task t => some t
  | _ => none

/-- The waker is invoked in this history: this is recorded, or that its task was enqueued, for `epoll_wait`
invokes no waker of a task. -/
def Waker.InvokedIn (w : Waker) (l : List Event) : Prop :=
  (∃ e ∈ w.event, e ∈ l) ∨ ∃ t ∈ w.taskId, .enqueued t ∈ l

instance (w : Waker) (l : List Event) : Decidable (w.InvokedIn l) :=
  inferInstanceAs (Decidable (_ ∨ _))

/-- What is invoked in a part of a history is invoked in it. -/
lemma Waker.InvokedIn.mono {w : Waker} {l l' : List Event} (h : w.InvokedIn l) (hl : l ⊆ l') :
    w.InvokedIn l' := by
  rcases h with ⟨e, he, hmem⟩ | ⟨t, ht, hmem⟩
  · exact .inl ⟨e, he, hl hmem⟩
  · exact .inr ⟨t, ht, hl hmem⟩

/-! ## Tasks that can be woken -/

namespace Sched

variable {σ σ' : Sched} {t : TaskId} {l : List Event}

/-- A task that can be woken after a move could be woken before, unless the move enqueues it. -/
lemma Step.wakeable (h : Step σ σ') (hl : σ.Onward l σ') (halive : σ'.alive t)
    (hc : σ'.completed t = false) (hnot : .enqueued t ∉ l) : σ.alive t ∧ σ.completed t = false := by
  by_cases hnew : t = σ.nTasks ∧ σ'.nTasks = σ.nTasks + 1
  · exfalso
    obtain ⟨rfl, hn⟩ := hnew
    cases h with
    | spawn p =>
      have hlog : [.enqueued σ.nTasks, .spawned σ.nTasks] ++ σ.log = l ++ σ.log := hl.log
      exact hnot (List.append_cancel_right hlog ▸ List.mem_cons_self ..)
    | _ => exact absurd hn (Nat.lt_succ_self _).ne
  · refine ⟨(h.alive halive).resolve_right hnew, ?_⟩
    cases h with
    | spawn p =>
      have ht : t ≠ σ.nTasks := fun ht => hnew ⟨ht, rfl⟩
      simpa [ht] using hc
    | complete u r hpolls =>
      have hu : t ≠ u := by
        rintro rfl
        simp at hc
      simpa [hu] using hc
    | _ => exact hc

/-- The same for any number of moves. -/
lemma wakeable_of_reaches (h : Relation.ReflTransGen Step σ σ') (hcr : σ'.crashed = false) :
    ∃ l, σ.Onward l σ' ∧ ∀ t, σ'.alive t → σ'.completed t = false → .enqueued t ∉ l →
      σ.alive t ∧ σ.completed t = false := by
  induction h with
  | refl => exact ⟨[], .refl σ, fun t halive hc _ => ⟨halive, hc⟩⟩
  | @tail σ₁ σ₂ _ hs ih =>
    obtain ⟨l, hl, hkeep⟩ := ih (hs.crashed hcr)
    obtain ⟨l', hl'⟩ := hs.onward hcr
    refine ⟨l' ++ l, hl.trans hl', fun t halive hc hnot => ?_⟩
    rw [List.mem_append, not_or] at hnot
    obtain ⟨halive₁, hc₁⟩ := hs.wakeable hl' halive hc hnot.1
    exact hkeep t halive₁ hc₁ hnot.2

end Sched

namespace Thread

variable {V : Type} {s s' : Thread V} {a : Action V} {t : TaskId} {f : FdId}

/-- What has happened since so many things had happened. -/
def since (s : Thread V) (n : ℕ) : List Event := s.log.take (s.log.length - n)

/-- What has happened after a step. -/
lemma since_of_log {l : List Event} {n : ℕ} (h : s'.log = l ++ s.log) (hn : n ≤ s.log.length) :
    s'.since n = l ++ s.since n := by
  have hlen : l.length + s.log.length - n = l.length + (s.log.length - n) := Nat.add_sub_assoc hn _
  simp [since, h, hlen, List.take_append]

/-- A task that can be woken after a step could be woken before, unless the step enqueues it. -/
lemma wakeable_of_step (h : Reachable step IsStart s) (hs : s.step a = some s') (hp : s'.panicked = none) :
    ∃ l, s'.log = l ++ s.log ∧ ∀ t, s'.Wakeable t → .enqueued t ∉ l → s.Wakeable t := by
  obtain ⟨l, hl, hkeep⟩ := Sched.wakeable_of_reaches ((move_of_step hs).2.refines (wf_of_reachable h))
    (by simp [abs, hp])
  refine ⟨l, hl.log, fun t hw hnot => ?_⟩
  obtain ⟨halive, hc⟩ := hkeep t (abs_alive.mpr hw.1) hw.2 hnot
  exact ⟨abs_alive.mp halive, hc⟩

/-- A step that delivers an event for a parked `Fd` enqueues the task whose waker the `Fd` holds, if it can be
woken. -/
lemma Parked.enqueued_of_step (h : s.Parked f (.task t)) (hs : s.step a = some s') (hp : s'.panicked = none)
    (hd : s.delivers a f = true) (hw : s.Wakeable t) : ∃ l, s'.log = l ++ s.log ∧ .enqueued t ∈ l := by
  obtain ⟨evs, e, s₁, hwaited, hmem, he, hnodup, hwakeup⟩ := waited_of_delivers hs hp hd
  obtain ⟨halive, htasks, hlog⟩ := s.yielded_frame a t
  have hparked := h.yielded a
  have htarget : (s.yielded a).target (.fd f e) = some t := by
    simp only [target, hparked.events, hparked.waker, EpollFlags.contains_zero he, Bool.false_eq_true, if_false]
  have hw' : (s.yielded a).Wakeable t := ⟨halive.trans hw.1, by rw [htasks, hw.2]⟩
  obtain ⟨m, hm, henqueued⟩ := (wakeup_woke hnodup hwakeup).log
  have hmemt : .enqueued t ∈ m := (henqueued t).mpr ⟨List.mem_filterMap.mpr ⟨_, hmem, htarget⟩, hw'⟩
  obtain ⟨s₂, heff, -, -, ⟨m₂, hm₂⟩, -⟩ := hwaited.after
  obtain ⟨m₁, hm₁, -⟩ := heff.untouched.log
  refine ⟨m₂ ++ (m₁ ++ m), by rw [← hm₂, hm₁, hm, hlog]; simp, ?_⟩
  simp [hmemt]

/-- A poll that yields invokes the waker that it is given. -/
lemma invoked_of_yield {cx : Waker} {k : KernelAnswer} {ew : EpollWaker}
    (hs : s.step (.pollWith f cx k) = some s') (hp : s'.panicked = none)
    (he : (s.fds f).ew.pollWithEnter cx = .yield ew) :
    ∃ l, s'.log = l ++ s.log ∧ ∀ e ∈ cx.event, e ∈ l := by
  obtain ⟨-, -, hwake⟩ := pollWith_spec hs hp
  simp only [he] at hwake
  obtain ⟨s₁, hs₁, hinvoked⟩ := invoked_of_wake (s := s.setFd f { s.fds f with ew := ew }) (k := k) (w := cx)
    (by simp [hwake, Outcome.panicked])
  obtain rfl : s' = s₁ := by simpa [hwake] using hs₁
  exact hinvoked.recorded

/-- `Fd::new` is a step of its own. -/
lemma eq_of_fdNew {raw : RawFd} {events : EpollFlags} {fcntl ctl : Bool}
    (h : s.step (.fdNew raw events fcntl ctl) = some s') : s' = s.fdNew raw events fcntl ctl := by
  cases (acts_of_step h).2
  rfl

end Thread

namespace Epoll

variable {V : Type} {p p' : Epoll V} {a : Action V} {b : EpollAction V} {f : FdId}

/-! ## Steps that are not about an `Fd` -/

/-- The step makes no call on the `Fd`, runs no closure of it and leaves its descriptor as ready as it is. -/
def Spares (f : FdId) (p : Epoll V) : EpollAction V → Prop
  | .thread a => (∀ cx k, a ≠ .pollWith f cx k) ∧ ∀ r, a = .closure r → p.thread.calling ≠ some f
  | .wouldBlock _ => p.thread.calling ≠ some f
  | .arrive g _ | .recede g _ => g ≠ f
  | _ => True

/-- A waker of a task that was left with the `Fd` stays there, unless the step enqueues the task. -/
def KeepsParked (f : FdId) (p p' : Epoll V) : Prop :=
  ∃ l, p'.thread.log = l ++ p.thread.log ∧ ∀ t, p'.thread.Wakeable t → .enqueued t ∉ l →
    p.thread.Wakeable t ∧ (p.parked f = some (.task t) → p'.parked f = some (.task t))

/-- What such a step leaves of the `Fd`: it sets flags. -/
structure FdKept (f : FdId) (p p' : Epoll V) : Prop where
  ew : ∃ e, (p'.thread.fds f).ew = (p.thread.fds f).ew.flag e
  parked : KeepsParked f p p'

/-- Nothing is left alone better than by doing nothing. -/
lemma FdKept.of_eq (hthread : p'.thread = p.thread) (hparked : p'.parked f = p.parked f) : FdKept f p p' := by
  refine ⟨⟨0, ?_⟩, [], by rw [hthread, List.nil_append], fun t hw _ => ⟨hthread ▸ hw, fun h => ?_⟩⟩
  · rw [hthread]
    exact (EpollWaker.flag_zero _).symm
  · rw [hparked, h]

/-- A step that takes the thread along leaves the readiness of a known descriptor alone. -/
lemma ready_of_threadStep (h : p.threadStep a = some p') (hf : f < p.thread.nFds) :
    p'.ready f = p.ready f := by
  obtain ⟨-, -, heq⟩ := threadStep_eq_some h
  rw [heq]
  exact (opened_eq hf.ne).2.2

/-- Descriptors become ready, or are no longer ready, by themselves. -/
lemma ready_of_step (h : p.step b = some p') (hf : f < p.thread.nFds)
    (hb : ∀ d, b ≠ .arrive f d ∧ b ≠ .recede f d) : p'.ready f = p.ready f := by
  rcases step_cases h with ⟨a, -, ha⟩ | ⟨hthread, hblock, -, -, -⟩
  · exact ready_of_threadStep ha hf
  · cases b with
    | thread a => exact absurd rfl (hthread a)
    | wouldBlock d => exact absurd rfl (hblock d)
    | arrive g d | recede g d =>
      obtain rfl := Option.some.inj h
      have hg : f ≠ g := by
        rintro rfl
        simpa using hb d
      simp [hg]
    | notify g d =>
      obtain rfl := Option.some.inj h
      rfl
    | forget g d | lose g =>
      simp only [step] at h
      split_ifs at h
      obtain rfl := Option.some.inj h
      rfl

/-- Polls of other `Fd`s leave the waker of this one where it is. -/
lemma parkedAfter_of_ne (hf : f ≠ p.thread.nFds) (hpoll : ∀ cx k, a ≠ .pollWith f cx k)
    (hclosure : ∀ r, a = .closure r → p.thread.calling ≠ some f) : p.parkedAfter a f = p.parked f := by
  cases a with
  | pollWith g cx k =>
    have hg : g ≠ f := by
      rintro rfl
      exact hpoll cx k rfl
    simp [parkedAfter, hg]
  | closure r =>
    simp only [parkedAfter]
    split
    · rename_i g cx rest hstack
      have hg : g ≠ f := by
        rintro rfl
        exact hclosure r rfl (by simp [Thread.calling, hstack])
      rw [if_neg hg]
    · rfl
  | fdNew raw events fcntl ctl => cases fcntl <;> simp [parkedAfter, opened, hf]
  | _ => rfl

/-- A step of the thread that makes no call on the `Fd` and runs no closure of it.  If it delivers an event
for the `Fd`, the waker that was left there is gone and its task is enqueued. -/
lemma fdKept_of_threadStep (h : p.threadStep a = some p') (hr : Reachable Thread.step Thread.IsStart p.thread)
    (hok : p.ParkedOk) (hp : p'.thread.panicked = none) (hf : f < p.thread.nFds)
    (hpoll : ∀ cx k, a ≠ .pollWith f cx k) (hclosure : ∀ r, a = .closure r → p.thread.calling ≠ some f) :
    FdKept f p p' := by
  obtain ⟨-, hs, heq⟩ := threadStep_eq_some h
  refine ⟨⟨flagsFor f (p.thread.reported a), ?_⟩, ?_⟩
  · rw [Thread.step_ew hs hp fun _ _ _ _ => hf.ne, Thread.polledEw_of_ne hpoll hclosure]
  · obtain ⟨l, hl, hkeep⟩ := Thread.wakeable_of_step hr hs hp
    refine ⟨l, hl, fun t hw hnot => ⟨hkeep t hw hnot, fun hparked => ?_⟩⟩
    have hd : p.thread.delivers a f = false := by
      by_contra hd
      obtain ⟨l', hl', hmem⟩ := (hok f _ hparked).enqueued_of_step hs hp (by simpa using hd) (hkeep t hw hnot)
      exact hnot (List.append_cancel_right (hl.symm.trans hl') ▸ hmem)
    rw [heq]
    simp only [parkedAfter_of_ne hf.ne hpoll hclosure, hd, Bool.false_eq_true, if_false]
    exact hparked

/-- A step that is not about the `Fd`. -/
lemma Spares.kept (hb : Spares f p b) (h : p.step b = some p')
    (hr : Reachable Thread.step Thread.IsStart p.thread) (hok : p.ParkedOk)
    (hp : p'.thread.panicked = none) (hf : f < p.thread.nFds) : FdKept f p p' := by
  rcases step_cases h with ⟨a, ha, hs⟩ | ⟨-, -, hthread, -, hparked⟩
  · rcases ha with ⟨rfl, -⟩ | ⟨d, g, rfl, rfl, hg, -⟩
    · exact fdKept_of_threadStep hs hr hok hp hf hb.1 hb.2
    · exact fdKept_of_threadStep hs hr hok hp hf (by simp) fun r _ => hb
  · exact .of_eq hthread (congrFun hparked f)

/-! ## Polls that leave their waker -/

/-- A poll that finds no events leaves its waker with the `Fd`. -/
lemma parked_of_pending {cx : Waker} {k : KernelAnswer} {ew : EpollWaker}
    (h : p.threadStep (.pollWith f cx k) = some p')
    (he : (p.thread.fds f).ew.pollWithEnter cx = .pending ew) : p'.parked f = some cx := by
  rw [(threadStep_eq_some h).2.2]
  simp [Thread.delivers, Thread.reported, Thread.waitsWith, parkedAfter, he]

/-- A closure that would block is a step of the thread. -/
lemma threadStep_of_wouldBlock {d : EpollFlags} (h : p.step (.wouldBlock d) = some p') :
    p.threadStep (.closure .wouldBlock) = some p' := by
  rcases step_cases h with ⟨a, ha, hs⟩ | ⟨-, hblock, -⟩
  · obtain ⟨-, -, -, rfl, -⟩ := ha.resolve_left (by simp)
    exact hs
  · exact absurd rfl (hblock d)

/-- A closure that would block leaves the waker of its poll with the `Fd`. -/
lemma parked_of_wouldBlock {d : EpollFlags} {cx : Waker} {rest : List Frame}
    (h : p.step (.wouldBlock d) = some p') (hstack : p.thread.stack = .pollWith f cx :: rest) :
    p'.parked f = some cx := by
  rw [(threadStep_eq_some (threadStep_of_wouldBlock h)).2.2]
  simp [Thread.delivers, Thread.reported, Thread.waitsWith, parkedAfter, hstack]

/-! ## Steps -/

/-- A thread that has panicked stays so. -/
lemma panicked_of_step (h : p.step b = some p') (hp : p'.thread.panicked = none) :
    p.thread.panicked = none := by
  rcases step_cases h with ⟨a, -, ha⟩ | ⟨-, -, ht, -, -⟩
  · exact (Thread.acts_of_step (threadStep_eq_some ha).2.1).1
  · exact ht ▸ hp

/-- `Fd`s are not forgotten. -/
lemma nFds_le_of_step (h : p.step b = some p') : p.thread.nFds ≤ p'.thread.nFds := by
  rcases step_cases h with ⟨a, -, ha⟩ | ⟨-, -, ht, -, -⟩
  · exact Thread.nFds_le_of_step (threadStep_eq_some ha).2.1
  · exact (congrArg Thread.nFds ht).ge

end Epoll

end Epox

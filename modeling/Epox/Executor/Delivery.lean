import Epox.Executor.Parking

/-!
# Events for a future that waits

`poll_with` that returns `Poll::Pending` leaves the waker of its caller with the `Fd`, and the
`epoll_wait` that delivers the next event for the `Fd` has to wake it.  The executor is borrowed while it
does so, so it does not call the waker: it looks for its own vtable and enqueues the task by hand.  What
becomes of the other wakers is settled here.
-/

namespace Epox

/-! ## What an event owes -/

/-- The call returns `Ok`, and leaves the thread with a property. -/
def Outcome.any {V : Type} (o : Outcome V) (P : Thread V → Bool) : Bool :=
  match o with
  | .ok s => P s
  | _ => false

/-- A call that returns `Ok` leaves a thread. -/
lemma Outcome.exists_of_any {V : Type} {o : Outcome V} {P : Thread V → Bool} (h : o.any P = true) :
    ∃ s, o = .ok s ∧ P s = true := by
  cases o with
  | ok s => exact ⟨s, rfl, h⟩
  | err s | panic p s => simp [Outcome.any] at h

namespace Thread

variable {V : Type} {s s' : Thread V}

/-- The thread is where it may call `epoll_wait`: at the wait of a loop, or where a waker is invoked. -/
def atWait (s : Thread V) : Bool :=
  match s.stack with
  | .run .waitZero :: _ | .run .waitNone :: _ => true
  | .blockOn _ .waitZero :: _ | .blockOn _ .waitNone :: _ => true
  | .runTask _ (.wakeHandle _) :: _ => true
  | _ => s.inUserCode

/-- What the delivery of an event owes the waker that was left with the `Fd`: a task is in its run queue;
a `block_on` polls its future next; a foreign waker has been invoked. -/
def Served (s s' : Thread V) : Waker → Prop
  | .task t => s'.alive t = true → (s'.tasks t).hasCompleted = false → s'.runnable t
  | .blockOn _ b => ∀ pc, .blockOn b pc ∈ s'.stack → pc = .waitZero ∨ pc = .waitNone
  | .noop => True
  | .other k => ∃ l, s'.log = l ++ s.log ∧ .otherWoken k ∈ l

/-- The wakers that the delivery of an event serves: those of tasks, and those of a `block_on` that is
not in the middle of polling its future. -/
def Serves (s : Thread V) : Waker → Prop
  | .task _ => True
  | .blockOn _ b => .blockOn b .polling ∉ s.stack
  | .noop => True
  | .other _ => False

/-! ## The loop over the events -/

/-- A task that is runnable stays so. -/
lemma Effect.runnable {t : TaskId} (h : Effect s s') (hr : s.runnable t) : s'.runnable t := by
  cases h with
  | @receive u rest hpipe halive hc =>
    rw [enqueue_of_not_completed (by exact hc)]
    by_cases ht : t = u
    · simp [Thread.runnable, setExec, ht]
    · simpa [Thread.runnable, setExec, Family.home_push, ht] using hr
  | @enqueue u halive hc =>
    rw [enqueue_of_not_completed hc]
    by_cases ht : t = u
    · simp [Thread.runnable, ht]
    · simpa [Thread.runnable, Family.home_push, ht] using hr
  | _ => exact hr

/-- A task that is runnable stays so. -/
lemma Effects.runnable {t : TaskId} (h : Effects s s') (hr : s.runnable t) : s'.runnable t := by
  induction h with
  | refl => exact hr
  | tail _ h ih => exact h.runnable ih

/-- The loop over the events records nothing but that tasks were enqueued. -/
lemma wakeup_onlyEnqueues {evs : List EpollEvent} (h : s.wakeup evs = .ok s') :
    OnlyEnqueues s s' := by
  induction evs generalizing s with
  | nil =>
    obtain rfl : s = s' := by simpa [wakeup] using h
    exact onlyEnqueues_of_log_eq rfl
  | cons e evs ih =>
    cases e with
    | pipe =>
      simp only [wakeup] at h
      split at h
      · rename_i s₁ hs₁
        exact (wakeFromPipe_frame hs₁).2.trans (ih h)
      · simp at h
    | fd f e =>
      simp only [wakeup] at h
      split at h
      · rename_i s₁ hs₁
        exact (deliver_frame hs₁).2.trans (ih h)
      · simp at h

/-- Delivering an event for a parked `Fd` makes the task runnable whose waker it holds. -/
lemma Parked.deliver {f : FdId} {t : TaskId} (h : s.Parked f (.task t)) {e : EpollFlags} (he : e ≠ 0)
    (hs : s.deliver f e = some s') (halive : s.alive t = true)
    (hc : (s.tasks t).hasCompleted = false) : s'.runnable t := by
  simp only [Thread.deliver, h.events, h.waker, EpollFlags.contains_zero he, Bool.false_eq_true,
    if_false] at hs
  split_ifs at hs with hb hal
  · obtain rfl := Option.some.inj hs
    exact runnable_enqueue hc
  · exact absurd halive hal

/-- The loop over the events makes the task runnable whose waker a parked `Fd` holds, if there is an event
for this `Fd`. -/
lemma Parked.wakeup {f : FdId} {t : TaskId} (h : s.Parked f (.task t)) {evs : List EpollEvent}
    (hnodup : (evs.map EpollEvent.key).Nodup) {e : EpollFlags} (hmem : .fd f e ∈ evs) (he : e ≠ 0)
    (hs : s.wakeup evs = .ok s') (halive : s.alive t = true)
    (hc : (s.tasks t).hasCompleted = false) : s'.runnable t := by
  induction evs generalizing s with
  | nil => simp at hmem
  | cons ev evs ih =>
    rw [List.map_cons, List.nodup_cons] at hnodup
    have key : ∀ s₁, Effects s s₁ → (s₁.fds f).ew = (s.fds f).ew → .fd f e ∈ evs →
        s₁.wakeup evs = .ok s' → s'.runnable t := by
      intro s₁ heff hew hmem hs
      have hst := heff.steady
      exact ih ⟨hew ▸ h.waker, hew ▸ h.events⟩ hnodup.2 hmem hs (hst.alive t ▸ halive)
        (by rwa [hst.tasks])
    cases ev with
    | pipe =>
      simp only [Thread.wakeup] at hs
      split at hs
      · rename_i s₁ hs₁
        exact key s₁ (wakeFromPipe_effects hs₁) (by rw [(wakeFromPipe_frame hs₁).1])
          (by simpa using hmem) hs
      · simp at hs
    | fd g e' =>
      simp only [Thread.wakeup] at hs
      split at hs
      · rename_i s₁ hs₁
        by_cases hgf : g = f
        · subst hgf
          have hnot : .fd g e ∉ evs := fun hm =>
            hnodup.1 (List.mem_map.mpr ⟨_, hm, rfl⟩)
          obtain rfl : e = e' := by simpa [hnot] using hmem
          have hrest := wakeup_effects evs s₁
          rw [hs] at hrest
          exact Effects.runnable hrest (h.deliver he hs₁ halive hc)
        · refine key s₁ (deliver_effects hs₁) ?_ ?_ hs
          · rw [(deliver_frame hs₁).1 f fun hfg => hgf hfg.symm]
          · exact (List.mem_cons.mp hmem).resolve_left fun heq => hgf (EpollEvent.fd.inj heq).1.symm
      · simp at hs

/-! ## Which wakers are served -/

/-- A `block_on` on the stack of a thread that may call `epoll_wait` polls its future or waits. -/
lemma Wf.blockOn_of_atWait (h : s.Wf) (hw : s.atWait = true) {b : BlockOnId} {pc : BlockOnPc}
    (hm : .blockOn b pc ∈ s.stack) : pc = .polling ∨ pc = .waitZero ∨ pc = .waitNone := by
  cases hstack : s.stack with
  | nil => simp [hstack] at hm
  | cons f rest =>
    rcases List.mem_cons.mp (hstack ▸ hm) with rfl | hm
    · cases pc <;> simp_all [atWait, inUserCode]
    · have hc := h.calling (.blockOn b pc) (by simpa [hstack] using hm)
      cases pc <;> simp_all [Frame.calling]

end Thread

end Epox

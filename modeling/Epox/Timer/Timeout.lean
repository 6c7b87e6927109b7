import Epox.Timer.Clock

/-!
# Timeouts

What becomes of the futures that `timeout` and `sleep` return.  The timer of such a future is set once, and
what has been read of it is what the polls of `tick` have returned (`WaitOk`); so it is `Wait.timer` until
something has been read.

When the future becomes ready is a question about endless runs.  `Clock.Fair` is what the rest of the program
and the kernel owe it, and the future keeps its promises (`Timely`) exactly if its duration is not zero, as long
as it is polled by tasks (`timely_iff`).
-/

namespace Epox

/-! ## The timer of a future -/

namespace Wait

variable {V : Type} {w : Wait V} {now : ℕ}

/-- The timer of the future, if nothing has been read of it. -/
def timer (w : Wait V) (now : ℕ) : TimerFd :=
  if w.duration = .zero then
    ⟨none, 0, 0⟩
  else if now < w.deadline then
    ⟨some w.deadline, 0, 0⟩
  else
    ⟨none, 0, 1⟩

/-- What becomes of a timer that has been set for the future. -/
lemma timer_of_settime {t : TimerFd}
    (h : TimerFd.settime w.since (.ofExpiration w.expiration) = some t) : t.advance now = w.timer now := by
  rw [TimerFd.settime_oneShot h, timer]
  by_cases hd : w.duration = .zero
  · simp [hd, TimerFd.advance]
  · simp only [hd, if_false, TimerFd.advance, deadline]
    by_cases hnow : now < w.since + w.duration.length <;> simp [hnow]

/-- The timer has expired. -/
lemma timer_ticks_pos_iff : 0 < (w.timer now).ticks ↔ w.duration ≠ .zero ∧ w.deadline ≤ now := by
  by_cases hd : w.duration = .zero
  · simp [timer, hd]
  · by_cases hnow : now < w.deadline <;> simp [timer, hd, hnow, not_lt.mp]

/-- The timer is armed, or has expired. -/
lemma timer_armed_iff : (w.timer now).next = some w.deadline ∨ 0 < (w.timer now).ticks ↔
    w.duration ≠ .zero := by
  by_cases hd : w.duration = .zero
  · simp [timer, hd]
  · by_cases hnow : now < w.deadline <;> simp [timer, hd, hnow]

end Wait

namespace TickLog

/-- What has been read since a timer was set. -/
lemma readSince_append (l : List ℕ) (since : ℕ) (spec : TimerSpec) :
    readSince (l.map .read ++ [.set since spec]) = l.sum ∧
      lastSet (l.map .read ++ [.set since spec]) = some (since, spec) := by
  induction l with
  | nil => exact ⟨rfl, rfl⟩
  | cons n l ih => exact ⟨by simp [readSince, ih.1], ih.2⟩

end TickLog

namespace Clock

variable {V : Type} {c c' : Clock V} {f : FdId} {w : Wait V}

/-- The timer of a future has been set once, to its duration, and what has been read of it is what the polls of
`tick` have returned. -/
structure WaitOk (c : Clock V) (f : FdId) (w : Wait V) : Prop where
  object : c.io.object f = some f
  log : c.io.kernel.log f = (c.io.results f).map .read ++ [.set w.since (.ofExpiration w.expiration)]

/-- Every step. -/
lemma WaitOk.step {a : ClockAction V} (hok : c.WaitOk f w) (hr : Reachable step IsStart c)
    (hw : c.waits f = some w) (h : c.step a = some c') : c'.WaitOk f w := by
  have hio := io_of_step h
  have hreach := reachable_io hr f
  have hknown := (Io.attached_of_reachable hreach hok.object).watches.known
  refine ⟨(Io.object_of_step hio hknown).trans hok.object, ?_⟩
  rcases Io.timer_cases hio (Io.owns_of_reachable hreach) with ⟨e, ha, -⟩ | ⟨hres, hlog, -⟩ | ⟨hres, -, hlog⟩
  · exact absurd ha (not_set_of_step h hw e)
  · rw [hlog, hres, hok.log]
  · rw [hlog, hres, hok.log, List.map_cons, List.cons_append]

/-- A future whose timer has just been set. -/
lemma waitOk_of_start {a : ClockAction V} (hr : Reachable step IsStart c) (h : c.step a = some c')
    (hnone : c.waits f = none) (hw : c'.waits f = some w) : c'.WaitOk f w := by
  obtain ⟨kind, d, k, hobject, hlog, hset, hio, rfl⟩ := start_of_none h hnone hw
  obtain ⟨t, -, rfl⟩ := TimerState.set_eq_some hset
  have hreach := reachable_io hr f
  obtain ⟨x, hx⟩ := Option.isSome_iff_exists.mp hobject
  obtain rfl : x = f := (Io.owns_of_reachable hreach f x hx).mpr rfl
  have hres : c.io.results x = [] := by simpa [hlog, TickLog.reads] using (Io.ticks_of_reachable hreach).1
  exact ⟨by rw [hio, Io.setKernel_object, hx], by simp [hio, hres, hlog, Wait.expiration]⟩

/-- In every reachable state the futures that own a timer are in order. -/
lemma waitOk_of_reachable (h : Reachable step IsStart c) (hw : c.waits f = some w) : c.WaitOk f w := by
  induction h generalizing w with
  | init h => simp [h.2 f] at hw
  | @next c a c' hr _ hs ih =>
    cases hbefore : c.waits f with
    | none => exact waitOk_of_start hr hs hbefore hw
    | some w₀ =>
      have hok := (ih hbefore).step hr hbefore hs
      rcases waits_of_step hs hbefore with hsame | ⟨_, v, _, -, -, -, hvalue⟩
      · exact Option.some.inj (hsame.symm.trans hw) ▸ hok
      · obtain rfl := Option.some.inj (hvalue.symm.trans hw)
        exact ⟨hok.object, hok.log⟩

/-- The timer of a future, less what has been read of it. -/
lemma timer_of_reachable (h : Reachable step IsStart c) (hw : c.waits f = some w) :
    (c.io.results f).sum ≤ (w.timer c.io.kernel.now).ticks ∧ c.io.kernel.timer f =
      { w.timer c.io.kernel.now with ticks := (w.timer c.io.kernel.now).ticks - (c.io.results f).sum } := by
  have hbooks := Io.timersOk_of_reachable (reachable_io h f) f
  obtain ⟨hsum, hset⟩ := TickLog.readSince_append (c.io.results f) w.since (.ofExpiration w.expiration)
  rw [← (waitOk_of_reachable h hw).log] at hsum hset
  unfold TimerState.Ok at hbooks
  simp only [hset, hsum] at hbooks
  obtain ⟨-, t, ht, hle, htimer⟩ := hbooks
  rw [Wait.timer_of_settime ht] at hle htimer
  exact ⟨hle, htimer⟩

/-- The timer of a future whose `tick` has not been ready. -/
lemma timer_of_not_ticked (h : Reachable step IsStart c) (hw : c.waits f = some w)
    (hres : c.io.results f = []) : c.io.kernel.timer f = w.timer c.io.kernel.now := by
  simpa [hres] using (timer_of_reachable h hw).2

/-- A future whose `tick` has been ready: the time is up, and the timer was armed. -/
lemma up_of_ticked (h : Reachable step IsStart c) (hw : c.waits f = some w) (hres : c.io.results f ≠ []) :
    w.duration ≠ .zero ∧ w.deadline ≤ c.io.kernel.now := by
  obtain ⟨n, l, hl⟩ := List.exists_cons_of_ne_nil hres
  have hpos : 0 < n := (Io.ticks_of_reachable (reachable_io h f)).2 n (by simp [hl])
  have hle := (timer_of_reachable h hw).1
  rw [hl, List.sum_cons] at hle
  exact Wait.timer_ticks_pos_iff.mp (lt_of_lt_of_le (Nat.add_pos_left hpos _) hle)

/-- What a future has returned. -/
lemma result_eq (hw : c.waits f = some w) : c.result f = w.result (c.io.results f) := by
  rw [result, hw, Option.bind_some]

/-! ## Endless runs -/

section Runs

variable {r : EndlessRun (step (V := V))}

/-- What the rest of the program and the kernel do in a run for a future that owns a timer.  Nothing panics
and time passes; and as long as the future is not ready, its `Fd` stays registered with the executor of the
thread, the edges of its descriptor are delivered, and it is polled: if the last poll of `tick` has returned
`Poll::Pending`, once the waker that was given to this poll has been invoked, and otherwise anyway.  Every poll
returns. -/
structure Fair (r : EndlessRun (step (V := V))) (f : FdId) : Prop where
  running : ∀ n, (r.state n).io.epoll.thread.panicked = none
  clock : ∀ time, ∃ n, time ≤ (r.state n).io.kernel.now
  registered : ∀ n, (r.state n).result f = none → (r.state n).io.epoll.thread.inInterest f
  served : r.LeadsTo (fun c => c.result f = none) fun c => c.io.epoll.edge f = 0 ∨ c.result f ≠ none
  polled : ∀ j, r.LeadsTo (fun c => c.result f = none ∧ c.io.pendings f = j ∧ c.io.asleep f = none) fun c =>
    c.result f ≠ none ∨ c.io.pendings f ≠ j

/-- Nobody but tasks polls the future: as long as it is not ready, the waker that it waits for is one of a task
that has not completed. -/
def PolledByTasks (r : EndlessRun (step (V := V))) (f : FdId) : Prop :=
  ∀ n, (r.state n).result f = none → (r.state n).io.Tended f

/-- A run that is fair to a future is fair to the `Fd` of its timer, as long as the future is not ready. -/
lemma Fair.io (hfair : Fair r f) (htasks : PolledByTasks r f)
    (hresult : ∀ n, (r.state n).result f = none ↔ (r.state n).io.results f = []) :
    Io.Fair (ioRun r) f fun c => c.results f = [] where
  running := hfair.running
  registered n hn := hfair.registered n ((hresult n).mpr hn)
  served n hn := by
    obtain ⟨m, hnm, hm⟩ := hfair.served n ((hresult n).mpr hn)
    exact ⟨m, hnm, hm.imp_right (mt (hresult m).mpr)⟩
  tended n hn := htasks n ((hresult n).mpr hn)
  polled j l := by
    rintro n ⟨hn, ⟨hj, -⟩, hasleep⟩
    obtain ⟨m, hnm, hm⟩ := hfair.polled j n ⟨(hresult n).mpr hn, hj, hasleep⟩
    exact ⟨m, hnm, hm.imp (mt (hresult m).mpr) fun hne hcount => hne hcount.1⟩

/-- A future stays as it is until a poll returns the value of the inner future. -/
lemma waits_of_run {n m : ℕ} (hnm : n ≤ m) (hw : (r.state n).waits f = some w) :
    (r.state m).waits f = some w ∨ ∃ i cx v k, r.action i = .poll f cx (some v) k ∧ w.kind = .timeout ∧
      w.value = none ∧ (r.state m).waits f = some { w with value := some v } := by
  induction m, hnm using Nat.le_induction with
  | base => exact .inl hw
  | succ m hnm ih =>
    rcases ih with hm | ⟨i, cx, v, k, hi, hkind, hnone, hm⟩
    · refine (waits_of_step (r.next m) hm).imp_right ?_
      rintro ⟨cx, v, k, ha, hkind, hr, hm'⟩
      rw [result_eq hm, Wait.result_eq_none_iff] at hr
      exact ⟨m, cx, v, k, ha, hkind, hr.1, hm'⟩
    · rcases waits_of_step (r.next m) hm with hm' | ⟨_, _, _, -, -, hr, -⟩
      · exact .inr ⟨i, cx, v, k, hi, hkind, hnone, hm'⟩
      · rw [result_eq hm, Wait.result_eq_none_iff] at hr
        simp at hr

/-- In a run time does not go back. -/
lemma now_le_of_run {n m : ℕ} (hnm : n ≤ m) : (r.state n).io.kernel.now ≤ (r.state m).io.kernel.now := by
  induction hnm with
  | refl => exact le_rfl
  | step _ ih => exact ih.trans (Io.now_le_of_step (io_of_step (r.next _)))

/-- What is promised of the future `w` of `timeout` or `sleep`, which is not ready at the beginning of the
run.  Its timer is armed, or has expired.  It reports that the time is up, unless the inner future is ready
when it is polled, and not before the time is up.  If the inner future is ready when it is polled, it
returns the value.  And the event that it waits for makes its task runnable. -/
structure Timely (r : EndlessRun (step (V := V))) (f : FdId) (w : Wait V) : Prop where
  armed : ((r.state 0).io.kernel.timer f).next = some w.deadline ∨ 0 < ((r.state 0).io.kernel.timer f).ticks
  elapses : (w.kind = .timeout → ∀ n cx v k, r.action n ≠ .poll f cx (some v) k) →
    ∃ n, (r.state n).result f = some w.kind.ticked
  patient : ∀ n, (r.state n).result f = some w.kind.ticked → w.deadline ≤ (r.state n).io.kernel.now
  ready : ∀ n cx v k, r.action n = .poll f cx (some v) k → ∀ m, n < m →
    (r.state m).result f = some (.ok v)
  woken : ∀ n a t, (r.state n).io.epoll.threadStep a = some (r.state (n + 1)).io.epoll →
    (r.state n).io.asleep f = some (.task t) → (r.state n).io.epoll.thread.Wakeable t →
      (r.state n).io.epoll.thread.delivers a f = true → (r.state (n + 1)).io.epoll.thread.runnable t

/-- A future reports that the time is up only if it is, and only if its timer was armed. -/
lemma up_of_result (h : Reachable step IsStart (r.state 0)) (hw : (r.state 0).waits f = some w) {n : ℕ}
    (hn : (r.state n).result f = some w.kind.ticked) :
    w.duration ≠ .zero ∧ w.deadline ≤ (r.state n).io.kernel.now := by
  rcases waits_of_run (Nat.zero_le n) hw with hwn | ⟨_, _, v, _, -, -, -, hwn⟩
  · rw [result_eq hwn, Wait.result_eq_ticked_iff] at hn
    exact up_of_ticked (r.reachable h n) hwn hn.2
  · rw [result_eq hwn] at hn
    exact absurd (Wait.result_eq_ticked_iff.mp hn).1 (by simp)

/-- The future of `timeout` returns the value of an inner future that is ready when it is polled. -/
lemma result_of_ready {n m : ℕ} {cx : Waker} {v : V} {k : KernelAnswer}
    (ha : r.action n = .poll f cx (some v) k) (hnm : n < m) : (r.state m).result f = some (.ok v) := by
  have hs := r.next n
  rw [ha] at hs
  obtain ⟨w, -, -, ⟨v', hv, -, heq⟩ | ⟨hv, -⟩⟩ := poll_cases hs
  · obtain rfl := Option.some.inj hv
    have hw : (r.state (n + 1)).waits f = some { w with value := some v } := by
      rw [heq]
      exact Function.update_self ..
    rcases waits_of_run hnm hw with hm | ⟨_, _, _, _, -, -, hnone, -⟩
    · rw [result_eq hm]
      rfl
    · simp at hnone
  · simp at hv

/-- A future whose timer was armed reports that the time is up, unless the inner future is ready when it is
polled: time passes until the timer has expired, and then the operation of `tick` stays possible. -/
lemma exists_result (h : Reachable step IsStart (r.state 0)) (hfair : Fair r f) (htasks : PolledByTasks r f)
    (hw : (r.state 0).waits f = some w) (hr : (r.state 0).result f = none) (hd : w.duration ≠ .zero)
    (hnever : w.kind = .timeout → ∀ n cx v k, r.action n ≠ .poll f cx (some v) k) :
    ∃ n, (r.state n).result f = some w.kind.ticked := by
  have hwaits : ∀ n, (r.state n).waits f = some w := fun n =>
    (waits_of_run (Nat.zero_le n) hw).resolve_right fun ⟨i, cx, v, k, ha, hkind, _⟩ =>
      hnever hkind i cx v k ha
  have hvalue : w.value = none := by
    rw [result_eq hw, Wait.result_eq_none_iff] at hr
    exact hr.1
  have hresult : ∀ n, (r.state n).result f = none ↔ (r.state n).io.results f = [] := fun n => by
    rw [result_eq (hwaits n), Wait.result_eq_none_iff, and_iff_right hvalue]
  suffices hticked : ∃ n, (r.state n).io.results f ≠ [] by
    obtain ⟨n, hn⟩ := hticked
    exact ⟨n, by rw [result_eq (hwaits n), Wait.result_eq_ticked_iff]; exact ⟨hvalue, hn⟩⟩
  obtain ⟨n, hn⟩ := hfair.clock w.deadline
  have hticks : ∀ m, n ≤ m → (r.state m).io.results f = [] → 0 < ((r.state m).io.kernel.timer f).ticks := by
    intro m hnm hres
    rw [timer_of_not_ticked (r.reachable h m) (hwaits m) hres, Wait.timer_ticks_pos_iff]
    exact ⟨hd, hn.trans (now_le_of_run hnm)⟩
  by_cases hres : (r.state n).io.results f = []
  · have hobject := (waitOk_of_reachable h hw).object
    have hexpired := (hfair.io htasks hresult).mono (B := fun c => c.results f = [] ∧
      0 < (c.kernel.timer f).ticks) fun _ hc => hc.1
    obtain ⟨m, hnm, hm | hm⟩ := Io.leadsTo_results_of_ready (r := ioRun r) (reachable_io h f).reachable hobject
      hexpired (fun _ hc => decide_eq_true hc.2) n ⟨⟨hres, hticks n le_rfl hres⟩, hres⟩
    · exact ⟨m, hm⟩
    · exact ⟨m, fun hres => hm ⟨hres, hticks m hnm hres⟩⟩
  · exact ⟨n, hres⟩

/-- A future whose timer was armed keeps its promises. -/
lemma timely_of_ne_zero (h : Reachable step IsStart (r.state 0)) (hfair : Fair r f)
    (htasks : PolledByTasks r f) (hw : (r.state 0).waits f = some w) (hr : (r.state 0).result f = none)
    (hd : w.duration ≠ .zero) : Timely r f w where
  armed := by
    rw [result_eq hw, Wait.result_eq_none_iff] at hr
    rw [timer_of_not_ticked h hw hr.2]
    exact Wait.timer_armed_iff.mpr hd
  elapses := exists_result h hfair htasks hw hr hd
  patient _ hn := (up_of_result h hw hn).2
  ready _ _ _ _ ha _ hnm := result_of_ready ha hnm
  woken n a t hs hasleep hwakeable hdelivers := by
    have hp := hfair.running
    have hio := reachable_io (r.reachable h n) f
    have hparked := (Io.rests_of_reachable hio (hp n)).parked t hasleep hwakeable
    have hok := Io.parkedOk_of_reachable hio (hp n) f _ hparked
    exact hok.runnable_of_step (Epoll.threadStep_eq_some hs).2.1 (hp (n + 1)) hdelivers hwakeable.1 hwakeable.2

end Runs

/-! ## Runs in which only time passes -/

/-- Time passes. -/
def elapse (c : Clock V) : Clock V := { c with io := c.io.setKernel (c.io.kernel.elapse 1) }

/-- Time passes, and nothing else happens. -/
def idle (c : Clock V) : EndlessRun (step (V := V)) where
  state n := elapse^[n] c
  action _ := .io (.event (.elapse 1))
  next n := by
    rw [Function.iterate_succ_apply']
    rfl

/-- What stays while time passes. -/
lemma idle_eq (c : Clock V) (n : ℕ) : (c.idle.state n).io.epoll.thread = c.io.epoll.thread ∧
    (c.idle.state n).waits = c.waits ∧ (c.idle.state n).io.results = c.io.results ∧
      (c.idle.state n).io.waiting = c.io.waiting ∧ (c.idle.state n).io.object = c.io.object ∧
        (c.idle.state n).io.kernel.now = c.io.kernel.now + n := by
  induction n with
  | zero => exact ⟨rfl, rfl, rfl, rfl, rfl, rfl⟩
  | succ n ih =>
    have hnext : c.idle.state (n + 1) = elapse (c.idle.state n) := Function.iterate_succ_apply' ..
    rw [hnext]
    obtain ⟨hthread, hwaits, hresults, hwaiting, hobject, hnow⟩ := ih
    exact ⟨hthread, hwaits, hresults, hwaiting, hobject, congrArg (· + 1) hnow⟩

/-- Nothing becomes of a timer that is disarmed. -/
lemma idle_of_disarmed (hobject : c.io.object f = some f) (hedge : c.io.epoll.edge f = 0)
    (htimer : c.io.kernel.timer f = .new) (n : ℕ) :
    (c.idle.state n).io.epoll.edge f = 0 ∧ (c.idle.state n).io.kernel.timer f = .new := by
  induction n with
  | zero => exact ⟨hedge, htimer⟩
  | succ n ih =>
    have hnext : c.idle.state (n + 1) = elapse (c.idle.state n) := Function.iterate_succ_apply' ..
    obtain ⟨hedge, htimer⟩ := ih
    obtain ⟨-, -, -, -, hobjects, -⟩ := c.idle_eq n
    have hstays : ((c.idle.state n).io.kernel.elapse 1).timer f = .new := by
      simp only [TimerState.elapse, htimer]
      exact TimerFd.advance_of_none rfl _
    refine ⟨?_, hnext ▸ hstays⟩
    have hflags : Device.flags timers ((c.idle.state n).io.kernel.elapse 1) f = 0 := by
      simp [Device.flags, hstays, TimerFd.new]
    simp [hnext, elapse, Io.setKernel, Epoll.refresh, hobjects, hobject, hflags, hedge]

/-- While time passes, nobody polls a future and no waker is invoked. -/
lemma idle_result (c : Clock V) (n : ℕ) : (c.idle.state n).result f = c.result f ∧
    (c.idle.state n).io.asleep f = c.io.asleep f := by
  obtain ⟨hthread, hwaits, hresults, hwaiting, -⟩ := c.idle_eq n
  exact ⟨by rw [result, hwaits, hresults, result], by rw [Io.asleep, hthread, hwaiting, Io.asleep]⟩

/-- Time passes while a future waits for an event that does not come. -/
lemma fair_idle (hp : c.io.epoll.thread.panicked = none) (hreg : c.io.epoll.thread.inInterest f)
    (hedge : ∀ n, (c.idle.state n).io.epoll.edge f = 0) (hasleep : c.io.asleep f ≠ none) :
    Fair c.idle f where
  running n := (c.idle_eq n).1 ▸ hp
  clock time := ⟨time, (c.idle_eq time).2.2.2.2.2 ▸ Nat.le_add_left ..⟩
  registered n _ := (c.idle_eq n).1 ▸ hreg
  served n _ := ⟨n, le_rfl, .inl (hedge n)⟩
  polled _ n hn := absurd ((c.idle_result n).2 ▸ hn.2.2) hasleep

/-- A step after which the future is ready, and then time passes. -/
lemma fair_cons {a : ClockAction V} (hs : c.step a = some c') (hp : c.io.epoll.thread.panicked = none)
    (hreg : c.io.epoll.thread.inInterest f) (hp' : c'.io.epoll.thread.panicked = none)
    (hready : c'.result f ≠ none) : Fair (.cons c a c'.idle hs) f := by
  have hdone : ∀ n, ((EndlessRun.cons c a c'.idle hs).state (1 + n)).result f ≠ none := fun n => by
    rw [Nat.add_comm]
    exact (c'.idle_result n).1 ▸ hready
  refine ⟨fun n => ?_, fun time => ?_, fun n hn => ?_, ?_, fun j => ?_⟩
  · cases n with
    | zero => exact hp
    | succ n => exact (c'.idle_eq n).1 ▸ hp'
  · exact ⟨time + 1, (c'.idle_eq time).2.2.2.2.2 ▸ Nat.le_add_left ..⟩
  · cases n with
    | zero => exact hreg
    | succ n => exact absurd hn (Nat.add_comm 1 n ▸ hdone n)
  · exact EndlessRun.leadsTo_of_later fun m => .inr (hdone m)
  · exact EndlessRun.leadsTo_of_later fun m => .inl (hdone m)

/-! ## Timeouts and sleeps -/

/-- A thread at its start, and no futures. -/
def noWaits : Clock Unit where
  io := .unset
  waits _ := none

/-- A state with a property that is reached by executing a sequence of actions. -/
lemma exists_reachable (actions : List (ClockAction Unit)) (P : Clock Unit → Bool)
    (hP : (exec step (fun _ _ => true) noWaits actions).any P = true) :
    ∃ c : Clock Unit, Reachable step IsStart c ∧ P c = true :=
  ReachableUnder.exists_free_run step ⟨Io.isStart_unset, fun _ => rfl⟩ actions hP

end Clock

end Epox

import Epox.Timer.Timers

/-!
# Futures that own a timer

The futures of `time.rs`, over the timers of `timer.rs`.  `Clock V` are the threads, descriptors and timers of
`Io V timers` with the futures that `timeout` and `sleep` have returned.  A `Timer` is named by its `Fd`, and
so is the future that owns it.

Everything that happens to the threads, descriptors and timers happens as in `Io`, but nobody else than the
future that owns a timer sets it or polls its `tick`.  What the future given to `timeout` does when it is
polled is up to the caller: it may take any number of steps before it returns.
-/

namespace Epox

/-- The function that has returned the future. -/
inductive WaitKind
  | timeout
  | sleep
  deriving DecidableEq

/-- What the future returns with `Poll::Ready`. -/
inductive WaitResult (V : Type)
  /-- `Timeout::poll`: `Ok(v)`. -/
  | ok (v : V)
  /-- `Timeout::poll`: `Err(())`. -/
  | elapsed
  /-- `sleep`: `Ok(())`. -/
  | slept
  deriving DecidableEq

/-- What the future returns when its `tick` is ready. -/
def WaitKind.ticked {V : Type} : WaitKind → WaitResult V
  | .timeout => .elapsed
  | .sleep => .slept

/-- A future that `timeout` or `sleep` has returned, without its timer and without the inner future. -/
structure Wait (V : Type) where
  kind : WaitKind
  /-- The duration for which the timer was set, and when this was. -/
  duration : Duration
  since : ℕ
  /-- What the inner future has returned with `Poll::Ready`. -/
  value : Option V

namespace Wait

variable {V : Type}

/-- When the timer is to expire. -/
def deadline (w : Wait V) : ℕ := w.since + w.duration.length

/-- What the timer is set to. -/
def expiration (w : Wait V) : Expiration := .oneShot (.ofDuration w.duration)

/-- What the future has returned with `Poll::Ready`, when its polls of `tick` have returned these expirations:
`Timeout::poll` polls the inner future before `tick`, and the future of `sleep` has none. -/
def result (w : Wait V) (ticks : List ℕ) : Option (WaitResult V) :=
  match w.value, ticks with
  | some v, _ => some (.ok v)
  | none, [] => none
  | none, _ :: _ => some w.kind.ticked

/-- A future that is not ready. -/
lemma result_eq_none_iff {w : Wait V} {ticks : List ℕ} :
    w.result ticks = none ↔ w.value = none ∧ ticks = [] := by
  cases hv : w.value <;> cases ticks <;> simp [result, hv]

/-- A future that has found its `tick` ready. -/
lemma result_eq_ticked_iff {w : Wait V} {ticks : List ℕ} :
    w.result ticks = some w.kind.ticked ↔ w.value = none ∧ ticks ≠ [] := by
  cases hv : w.value with
  | none => cases ticks <;> simp [result, hv]
  | some v => cases hk : w.kind <;> simp [result, hv, WaitKind.ticked]

end Wait

/-- A thread, its descriptors and timers, and the futures that own one of these. -/
structure Clock (V : Type) where
  io : Io V timers
  waits : FdId → Option (Wait V)

/-- What happens to the futures, or to anything else. -/
inductive ClockAction (V : Type)
  /-- Nobody sets the timer of a future or polls its `tick`. -/
  | io (a : IoAction V timers)
  /-- `timeout`, or the first poll of the future of `sleep` up to `tick`, once `Timer::new` has returned. -/
  | start (kind : WaitKind) (f : FdId) (d : Duration)
  /-- The future of `timeout` or `sleep` is polled; `inner` is what the poll of the inner future has just
  returned, `none` being `Poll::Pending`. -/
  | poll (f : FdId) (cx : Waker) (inner : Option V) (k : KernelAnswer)

namespace Clock

variable {V : Type}

/-- What a future has returned with `Poll::Ready`. -/
def result (c : Clock V) (f : FdId) : Option (WaitResult V) :=
  (c.waits f).bind fun w => w.result (c.io.results f)

/-- A step of the threads, descriptors and timers. -/
def ioStep (c : Clock V) (a : IoAction V timers) : Option (Clock V) :=
  (c.io.step a).map fun io => { c with io := io }

/-- Change a future. -/
def setWait (c : Clock V) (f : FdId) (w : Wait V) : Clock V :=
  { c with waits := Function.update c.waits f (some w) }

/-! ### `time.rs` -/

/-- `timeout`, or the first poll of the future of `sleep` up to `tick`, once `Timer::new` has returned: the
timer is set, and dropped if it cannot be set. -/
def start (c : Clock V) (kind : WaitKind) (f : FdId) (d : Duration) : Option (Clock V) :=
  let w : Wait V := ⟨kind, d, c.io.kernel.now, none⟩
  if (c.io.kernel.set f w.expiration).isSome then
    (c.ioStep (.event (.set f w.expiration))).map fun c' => c'.setWait f w
  else
    c.ioStep (.epoll (.thread (.fdDrop f)))

/-- `Timeout::poll` once the inner future has been polled, and the poll of the future of `sleep`; up to the
closure of `tick`. -/
def poll (c : Clock V) (f : FdId) (w : Wait V) (cx : Waker) (inner : Option V) (k : KernelAnswer) :
    Option (Clock V) :=
  match inner with
  | some v => if w.kind = .timeout then some (c.setWait f { w with value := some v }) else none
  | none => c.ioStep (.poll f () cx k)

/-! ### Steps -/

/-- What is not about the timer of a future: nobody sets it or polls its `tick`.  `Timer::new` returns a new
timer. -/
def elsewhere (c : Clock V) : IoAction V timers → Bool
  | .fdNew i _ _ _ => decide (i = c.io.epoll.thread.nFds)
  | .event (.set i _) => (c.io.object i).isSome && (c.waits i).isNone
  | .poll f _ _ _ => (c.waits f).isNone
  | _ => true

/-- A step. -/
def step (c : Clock V) : ClockAction V → Option (Clock V)
  | .io a => if c.elsewhere a then c.ioStep a else none
  | .start kind f d =>
    if c.io.inUserCode && (c.io.epoll.thread.fds f).live && (c.io.object f).isSome &&
        (c.io.kernel.log f).isEmpty && (c.waits f).isNone then
      c.start kind f d
    else
      none
  | .poll f cx inner k =>
    match c.waits f with
    | some w =>
      if c.io.inUserCode && (c.io.epoll.thread.fds f).live && (c.result f).isNone then
        c.poll f w cx inner k
      else
        none
    | none => none

/-- A thread at its start, and no timers. -/
def IsStart (c : Clock V) : Prop := c.io.IsStart ∧ ∀ f, c.waits f = none

/-! ## The timers -/

variable {c c' : Clock V} {f : FdId} {w : Wait V}

/-- What a step is for the threads, descriptors and timers. -/
def ioAction (c : Clock V) : ClockAction V → IoAction V timers
  | .io a => a
  | .start _ f d =>
    if (c.io.kernel.set f (.oneShot (.ofDuration d))).isSome then
      .event (.set f (.oneShot (.ofDuration d)))
    else
      .epoll (.thread (.fdDrop f))
  | .poll f cx none k => .poll f () cx k
  | .poll _ _ (some _) _ => .epoll (.notify 0 0)

/-- A step of the threads, descriptors and timers. -/
lemma ioStep_eq_some {a : IoAction V timers} (h : c.ioStep a = some c') :
    c.io.step a = some c'.io ∧ c'.waits = c.waits := by
  obtain ⟨io, hio, rfl⟩ := Option.map_eq_some_iff.mp h
  exact ⟨hio, rfl⟩

/-- `timeout` and `sleep`: the timer is set, or it cannot be set. -/
lemma start_cases {kind : WaitKind} {d : Duration} (h : c.step (.start kind f d) = some c') :
    (c.io.object f).isSome = true ∧ c.io.kernel.log f = [] ∧ c.waits f = none ∧
      c.io.step (c.ioAction (.start kind f d)) = some c'.io ∧
        ((∃ k, c.io.kernel.set f (.oneShot (.ofDuration d)) = some k ∧ c'.io = c.io.setKernel k ∧
            c'.waits = Function.update c.waits f (some ⟨kind, d, c.io.kernel.now, none⟩)) ∨
          c'.waits = c.waits) := by
  simp only [step, Option.ite_none_right_eq_some, Bool.and_eq_true, Option.isNone_iff_eq_none,
    List.isEmpty_iff] at h
  obtain ⟨⟨⟨⟨⟨-, -⟩, hobject⟩, hlog⟩, hnone⟩, h⟩ := h
  refine ⟨hobject, hlog, hnone, ?_⟩
  simp only [start, Wait.expiration] at h
  simp only [ioAction]
  cases hset : c.io.kernel.set f (.oneShot (.ofDuration d)) with
  | some k =>
    simp only [hset, Option.isSome_some, if_true] at h ⊢
    obtain ⟨c₁, hc₁, rfl⟩ := Option.map_eq_some_iff.mp h
    obtain ⟨hs, hwaits⟩ := ioStep_eq_some hc₁
    refine ⟨hs, .inl ⟨k, rfl, ?_, by rw [setWait, hwaits]⟩⟩
    have hk : c.io.setKernel k = c₁.io := by
      simpa [Io.step, TimerEvent.apply, hset] using hs
    exact hk.symm
  | none =>
    simp only [hset, Option.isSome_none, Bool.false_eq_true, if_false] at h ⊢
    obtain ⟨hs, hwaits⟩ := ioStep_eq_some h
    exact ⟨hs, .inr hwaits⟩

/-- A poll of a future: the inner future is ready, or `tick` is polled. -/
lemma poll_cases {cx : Waker} {inner : Option V} {k : KernelAnswer}
    (h : c.step (.poll f cx inner k) = some c') : ∃ w, c.waits f = some w ∧ c.result f = none ∧
      ((∃ v, inner = some v ∧ w.kind = .timeout ∧ c' = c.setWait f { w with value := some v }) ∨
        inner = none ∧ c.io.step (.poll f () cx k) = some c'.io ∧ c'.waits = c.waits) := by
  simp only [step] at h
  split at h
  · rename_i w hw
    simp only [Option.ite_none_right_eq_some, Bool.and_eq_true, Option.isNone_iff_eq_none] at h
    obtain ⟨⟨-, hr⟩, h⟩ := h
    refine ⟨w, hw, hr, ?_⟩
    cases inner with
    | some v =>
      simp only [poll, Option.ite_none_right_eq_some] at h
      exact .inl ⟨v, rfl, h.1, (Option.some.inj h.2).symm⟩
    | none => exact .inr ⟨rfl, ioStep_eq_some h⟩
  · simp at h

/-- Nothing happens to the threads, descriptors and timers. -/
lemma io_notify (c : Io V timers) : c.step (.epoll (.notify 0 0)) = some c := by
  simp [Io.step, Io.elsewhere, Io.epollStep, Epoll.step]

/-- Every step is one of the threads, descriptors and timers. -/
lemma io_of_step {a : ClockAction V} (h : c.step a = some c') : c.io.step (c.ioAction a) = some c'.io := by
  cases a with
  | io a =>
    simp only [step, Option.ite_none_right_eq_some] at h
    exact (ioStep_eq_some h.2).1
  | start kind f d => exact (start_cases h).2.2.2.1
  | poll f cx inner k =>
    obtain ⟨w, -, -, ⟨v, rfl, -, rfl⟩ | ⟨rfl, hs, -⟩⟩ := poll_cases h
    · exact io_notify c.io
    · exact hs

/-- Every `Fd` has a timer of its own. -/
lemma assigned_of_step {a : ClockAction V} (h : c.step a = some c') (f : FdId) :
    Io.Assigned (D := timers) f f c.io (c.ioAction a) := by
  cases a with
  | io a =>
    simp only [step, Option.ite_none_right_eq_some] at h
    cases a with
    | fdNew i raw fcntl ctl =>
      obtain rfl : i = c.io.epoll.thread.nFds := by simpa [elsewhere] using h.1
      exact Iff.rfl
    | _ => trivial
  | start kind g d =>
    simp only [ioAction]
    split <;> trivial
  | poll g cx inner k => cases inner <;> trivial

/-- The threads, descriptors and timers are reached without the futures, too. -/
lemma reachable_io (h : Reachable step IsStart c) (f : FdId) :
    ReachableUnder Io.step Io.IsStart (Io.Assigned (D := timers) f f) c.io :=
  h.map (fun _ h => h.1) fun _ _ _ _ hs => ⟨assigned_of_step hs f, io_of_step hs⟩

/-- The run of the threads, descriptors and timers in a run with the futures. -/
def ioRun (r : EndlessRun (step (V := V))) : EndlessRun (Io.step (V := V) (D := timers)) :=
  r.map Clock.io ioAction fun _ _ _ => io_of_step

/-! ## The futures -/

/-- A future stays as it is, or its poll returns the value of the inner future. -/
lemma waits_of_step {a : ClockAction V} (h : c.step a = some c') (hw : c.waits f = some w) :
    c'.waits f = some w ∨ ∃ cx v k, a = .poll f cx (some v) k ∧ w.kind = .timeout ∧ c.result f = none ∧
      c'.waits f = some { w with value := some v } := by
  cases a with
  | io a =>
    simp only [step, Option.ite_none_right_eq_some] at h
    exact .inl ((ioStep_eq_some h.2).2 ▸ hw)
  | start kind g d =>
    left
    obtain ⟨-, -, hnone, -, ⟨k, -, -, hwaits⟩ | hwaits⟩ := start_cases h
    · have hne : f ≠ g := by
        rintro rfl
        simp [hw] at hnone
      rw [hwaits, Function.update_of_ne hne, hw]
    · rw [hwaits, hw]
  | poll g cx inner k =>
    obtain ⟨w', hw', hr, ⟨v, rfl, hkind, rfl⟩ | ⟨rfl, -, hwaits⟩⟩ := poll_cases h
    · by_cases hg : f = g
      · subst hg
        obtain rfl := Option.some.inj (hw.symm.trans hw')
        exact .inr ⟨cx, v, k, rfl, hkind, hr, Function.update_self ..⟩
      · exact .inl ((Function.update_of_ne hg ..).trans hw)
    · exact .inl (hwaits ▸ hw)

/-- Only `timeout` and `sleep` create such futures. -/
lemma start_of_none {a : ClockAction V} (h : c.step a = some c') (hnone : c.waits f = none)
    (hw : c'.waits f = some w) : ∃ kind d k, (c.io.object f).isSome = true ∧ c.io.kernel.log f = [] ∧
      c.io.kernel.set f (.oneShot (.ofDuration d)) = some k ∧ c'.io = c.io.setKernel k ∧
        w = ⟨kind, d, c.io.kernel.now, none⟩ := by
  cases a with
  | io a =>
    simp only [step, Option.ite_none_right_eq_some] at h
    rw [(ioStep_eq_some h.2).2, hnone] at hw
    simp at hw
  | start kind g d =>
    obtain ⟨hobject, hlog, -, -, ⟨k, hk, hio, hwaits⟩ | hwaits⟩ := start_cases h
    · by_cases hg : f = g
      · subst hg
        rw [hwaits, Function.update_self] at hw
        exact ⟨kind, d, k, hobject, hlog, hk, hio, (Option.some.inj hw).symm⟩
      · rw [hwaits, Function.update_of_ne hg, hnone] at hw
        simp at hw
    · rw [hwaits, hnone] at hw
      simp at hw
  | poll g cx inner k =>
    obtain ⟨w', hw', -, ⟨v, rfl, -, rfl⟩ | ⟨rfl, -, hwaits⟩⟩ := poll_cases h
    · have hne : f ≠ g := by
        rintro rfl
        simp [hw'] at hnone
      simp [setWait, hne, hnone] at hw
    · rw [hwaits, hnone] at hw
      simp at hw

/-- The timer of a future is set by nobody else. -/
lemma not_set_of_step {a : ClockAction V} (h : c.step a = some c') (hw : c.waits f = some w) (e : Expiration) :
    c.ioAction a ≠ .event (.set f e) := by
  cases a with
  | io a =>
    simp only [step, Option.ite_none_right_eq_some] at h
    rintro rfl
    simp [elsewhere, hw] at h
  | start kind g d =>
    obtain ⟨-, -, hnone, -⟩ := start_cases h
    simp only [ioAction]
    split
    · rintro heq
      obtain rfl : g = f := by simpa using (TimerEvent.set.inj (IoAction.event.inj heq)).1
      simp [hw] at hnone
    · simp
  | poll g cx inner k => cases inner <;> simp [ioAction]

end Clock

end Epox

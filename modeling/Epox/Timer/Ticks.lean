import Epox.Timer.Timers

/-!
# Ticks

`Timer::set` and `Timer::tick` for any `Expiration`.  However late and in whatever pieces the ticks are read,
together with those that have not been read yet they are the expirations that were due (`ticks_accounted`), and
those that have not been read yet are going to be (`ticks_delivered`).
-/

namespace Epox

namespace Io

variable {V : Type} {c : Io V timers} {f : FdId} {i : ℕ}

/-- What `Timer::tick` has returned is what has been read from the timer, and never zero.  Since the timer
was last set, what has been read and what is still to be read are all expirations that have been due,
whatever the `Expiration`, and however late `tick` has been polled. -/
theorem ticks_accounted (h : ReachableUnder step IsStart (Assigned f i) c) :
    c.results f = TickLog.reads (c.kernel.log i) ∧ (∀ n ∈ c.results f, 0 < n) ∧
      ∀ since spec, TickLog.lastSet (c.kernel.log i) = some (since, spec) →
        TickLog.readSince (c.kernel.log i) + (c.kernel.timer i).ticks =
          spec.expirations since c.kernel.now := by
  obtain ⟨hreads, hpos⟩ := ticks_of_reachable h
  exact ⟨hreads, hpos, fun since spec hset => (timersOk_of_reachable h i).readSince_add hset⟩

/-! ## Endless runs -/

section Runs

variable {r : EndlessRun (step (V := V) (D := timers))}

/-- In every run that is fair to the `Fd` of a timer as long as an expiration has not been read,
`Timer::tick` returns all expirations that have not been read, and possibly more; unless the timer is set
before. -/
theorem ticks_delivered (hstart : ReachableUnder step IsStart (Assigned f i) (r.state 0))
    (hassigned : ∀ n, Assigned f i (r.state n) (r.action n)) (hobject : (r.state 0).object f = some i)
    (hfair : Fair r f fun c => 0 < (c.kernel.timer i).ticks) (n : ℕ)
    (hn : 0 < ((r.state n).kernel.timer i).ticks) :
    ∃ m, n ≤ m ∧ ((∃ k, ((r.state n).kernel.timer i).ticks ≤ k ∧
        (r.state (m + 1)).results f = k :: (r.state m).results f) ∨
      ∃ e, r.action m = .event (.set i e)) := by
  by_contra hnever
  push Not at hnever
  have hstays : ∀ m, n ≤ m → (r.state m).results f = (r.state n).results f ∧
      ((r.state n).kernel.timer i).ticks ≤ ((r.state m).kernel.timer i).ticks := by
    intro m hnm
    induction m, hnm using Nat.le_induction with
    | base => exact ⟨rfl, le_rfl⟩
    | succ m hnm ih =>
      obtain ⟨hread, hset⟩ := hnever m hnm
      have hown := owns_of_reachable (r.reachableUnder hstart hassigned m)
      rcases timer_cases (r.next m) hown with ⟨e, ha, -⟩ | ⟨hres, -, hle⟩ | ⟨hres, -⟩
      · exact absurd ha (hset e)
      · exact ⟨hres.trans ih.1, ih.2.trans hle⟩
      · exact absurd hres (hread _ ih.2)
  obtain ⟨m, hnm, hm | hm⟩ := leadsTo_results_of_ready hstart.reachable hobject hfair
    (fun _ => decide_eq_true) n ⟨hn, rfl⟩
  · exact hm (hstays m hnm).1
  · exact hm (hn.trans_le (hstays m hnm).2)

end Runs

/-! ## A timer that expires every ten nanoseconds -/

/-- A task sets a timer and awaits a tick, and the timer expires twice. -/
def expireTwice : List (IoAction Unit timers) :=
  [.epoll (.thread (.spawn .normal)), .epoll (.thread .run), .epoll (.thread (.go (.ok []))),
    .fdNew 0 7 true true, .event (.set 0 (.interval ⟨0, 10⟩)), .poll 0 () (.task 0) (.ok []), .operate (),
    .event (.elapse 12), .event (.elapse 13)]

/-- It is woken and reads the timer. -/
def readBoth : List (IoAction Unit timers) :=
  [.epoll (.thread .pending), .epoll (.thread (.go (.ok []))), .epoll (.thread (.go (.ok []))),
    .epoll (.thread (.go (.ok [.fd 0 1]))), .epoll (.thread (.go (.ok []))), .poll 0 () (.task 0) (.ok []),
    .operate ()]

/-- Two expirations have been read, and a third one has not. -/
theorem ticks_accounted_of_three : ∃ (c : Io Unit timers) (spec : TimerSpec),
    ReachableUnder step IsStart (Assigned (D := timers) 0 0) c ∧ c.kernel.now = 35 ∧
      TickLog.readSince (c.kernel.log 0) = 2 ∧
        TickLog.readSince (c.kernel.log 0) + (c.kernel.timer 0).ticks = spec.expirations 0 35 := by
  obtain ⟨c, hc, h⟩ := ReachableUnder.exists_run step
    (fun (c : Io Unit timers) a => Assigned (D := timers) 0 0 c a) isStart_unset
    (expireTwice ++ readBoth ++ [.event (.elapse 10)])
    (P := fun c => decide (c.kernel.now = 35 ∧ TickLog.readSince (c.kernel.log 0) = 2) &&
      (TickLog.lastSet (c.kernel.log 0)).any fun p : ℕ × TimerSpec => decide (p.1 = 0)) (by decide +kernel)
  rw [Bool.and_eq_true] at h
  obtain ⟨hnow, hread⟩ := of_decide_eq_true h.1
  obtain ⟨⟨since, spec⟩, hset, hsince⟩ := (Option.any_eq_true _ _).mp h.2
  obtain rfl : since = 0 := of_decide_eq_true hsince
  exact ⟨c, spec, hc, hnow, hread, hnow ▸ (ticks_accounted hc).2.2 0 spec hset⟩

/-- What is needed of each step of `readBoth`. -/
def Untouched (c : Io Unit timers) (a : IoAction Unit timers) : Prop :=
  Assigned (D := timers) 0 0 c a ∧ c.epoll.thread.panicked = none ∧ c.epoll.thread.inInterest 0 ∧ c.Tended 0

instance (c : Io Unit timers) (a : IoAction Unit timers) : Decidable (Untouched c a) :=
  inferInstanceAs (Decidable (_ ∧ _))

/-- Both expirations are read. -/
theorem ticks_delivered_of_two : ∃ (r : EndlessRun (step (V := Unit) (D := timers))) (m : ℕ),
    ((r.state 0).kernel.timer 0).ticks = 2 ∧
      ((∃ k, 2 ≤ k ∧ (r.state (m + 1)).results 0 = k :: (r.state m).results 0) ∨
        ∃ e, r.action m = .event (.set 0 e)) := by
  obtain ⟨c₀, hc₀, h⟩ := ReachableUnder.exists_run step
    (fun (c : Io Unit timers) a => Assigned (D := timers) 0 0 c a) isStart_unset expireTwice
    (P := fun c₀ => (exec step (fun c a => decide (Untouched c a)) c₀ readBoth).any
      fun c : Io Unit timers => decide (((c₀.kernel.timer 0).ticks = 2 ∧ c₀.object 0 = some 0) ∧
        (c.kernel.timer 0).ticks = 0 ∧ c.epoll.thread.panicked = none)) (by decide +kernel)
  obtain ⟨c, hexec, h⟩ := (Option.any_eq_true _ _).mp h
  obtain ⟨⟨htwo, hobject⟩, hzero, hp⟩ := of_decide_eq_true h
  obtain ⟨r, rfl, huntouched, hlater⟩ := exists_resting_run (C := Untouched) hexec
  have hsteps : ∀ n, Assigned (D := timers) 0 0 (r.state n) (r.action n) ∧
      (r.state n).epoll.thread.panicked = none ∧
        (r.state n = c ∨ (r.state n).epoll.thread.inInterest 0 ∧ (r.state n).Tended 0) := fun n => by
    rcases huntouched n with hn | ⟨hn, ha⟩
    · exact ⟨hn.1, hn.2.1, .inr hn.2.2⟩
    · rw [ha, hn]
      exact ⟨trivial, hp, .inl rfl⟩
  have hfair : Fair r 0 fun c => 0 < (c.kernel.timer 0).ticks :=
    fair_of_rest hlater (by simp [hzero]) fun n => (hsteps n).2
  obtain ⟨m, -, hm⟩ := ticks_delivered hc₀ (fun n => (hsteps n).1) hobject hfair 0 (by simp [htwo])
  exact ⟨r, m, htwo, htwo ▸ hm⟩

end Io

end Epox

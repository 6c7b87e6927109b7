import Epox.Foundation.Transition

/-!
# Endless runs

`EndlessRun step` is an infinite run of a machine: a state and an action for every time.  What such a run
has to do is said with two relations between predicates on states: `r.LeadsTo P Q` (whenever `P` holds, `Q`
holds then or later) and `r.Unless P Q` (a step from `P` leaves `P` only for `Q`).  The second one is proved
step by step, the first one comes from what is assumed of the environment; `LeadsTo.unless` combines them.
-/

namespace Epox

variable {σ α : Type*} {step : σ → α → Option σ} {start : σ → Prop} {C : σ → α → Prop}
  {P P' Q Q' R B : σ → Prop}

/-- An infinite run. -/
structure EndlessRun (step : σ → α → Option σ) where
  state : ℕ → σ
  action : ℕ → α
  next : ∀ n, step (state n) (action n) = some (state (n + 1))

namespace EndlessRun

/-- A step and then a run. -/
def cons (s : σ) (a : α) (r : EndlessRun step) (h : step s a = some (r.state 0)) : EndlessRun step where
  state
    | 0 => s
    | n + 1 => r.state n
  action
    | 0 => a
    | n + 1 => r.action n
  next
    | 0 => h
    | n + 1 => r.next n

/-- The run of a machine that takes a step for each step of another one. -/
def map {τ β : Type*} {step' : τ → β → Option τ} (r : EndlessRun step) (f : σ → τ) (g : σ → α → β)
    (h : ∀ s a s', step s a = some s' → step' (f s) (g s a) = some (f s')) : EndlessRun step' where
  state n := f (r.state n)
  action n := g (r.state n) (r.action n)
  next n := h _ _ _ (r.next n)

/-- The states of an infinite run from a state of a run are states of runs. -/
lemma reachable (r : EndlessRun step) (h : Reachable step start (r.state 0)) (n : ℕ) :
    Reachable step start (r.state n) := by
  induction n with
  | zero => exact h
  | succ n ih => exact .next ih trivial (r.next n)

/-- The same for runs whose steps meet a condition. -/
lemma reachableUnder (r : EndlessRun step) (h : ReachableUnder step start C (r.state 0))
    (hC : ∀ n, C (r.state n) (r.action n)) (n : ℕ) : ReachableUnder step start C (r.state n) := by
  induction n with
  | zero => exact h
  | succ n ih => exact .next ih (hC n) (r.next n)

variable {r : EndlessRun step}

/-- Whenever `P` holds, `Q` holds then or later. -/
def LeadsTo (r : EndlessRun step) (P Q : σ → Prop) : Prop :=
  ∀ n, P (r.state n) → ∃ m, n ≤ m ∧ Q (r.state m)

/-- A step from `P` leads to `P` or to `Q`. -/
def Unless (r : EndlessRun step) (P Q : σ → Prop) : Prop :=
  ∀ n, P (r.state n) → P (r.state (n + 1)) ∨ Q (r.state (n + 1))

/-- As long as `Q` has not held, `P` stays. -/
lemma Unless.stays (h : r.Unless P Q) {n m : ℕ} (hnm : n ≤ m) (hP : P (r.state n)) :
    P (r.state m) ∨ ∃ i, n ≤ i ∧ Q (r.state i) := by
  induction hnm with
  | refl => exact .inl hP
  | step hnm ih =>
    rcases ih with hm | hQ
    · exact (h _ hm).imp_right fun hQ => ⟨_, Nat.le_succ_of_le hnm, hQ⟩
    · exact .inr hQ

/-- What is inevitable comes, or what keeps `R` from staying comes. -/
lemma LeadsTo.unless (h : r.LeadsTo P Q) (hR : r.Unless R B) :
    r.LeadsTo (fun s => P s ∧ R s) fun s => (Q s ∧ R s) ∨ B s := by
  rintro n ⟨hP, hn⟩
  obtain ⟨m, hnm, hQ⟩ := h n hP
  rcases hR.stays hnm hn with hm | ⟨i, hi, hB⟩
  · exact ⟨m, hnm, .inl ⟨hQ, hm⟩⟩
  · exact ⟨i, hi, .inr hB⟩

/-- One of two leads to the other. -/
lemma LeadsTo.cancel (h : r.LeadsTo P fun s => Q s ∨ R s) (h' : r.LeadsTo Q R) : r.LeadsTo P R := by
  intro n hP
  obtain ⟨m, hnm, hQ | hR⟩ := h n hP
  · obtain ⟨i, hmi, hR⟩ := h' m hQ
    exact ⟨i, Nat.le_trans hnm hmi, hR⟩
  · exact ⟨m, hnm, hR⟩

/-- From less to more. -/
lemma LeadsTo.mono (h : r.LeadsTo P Q) (hP : ∀ n, P' (r.state n) → P (r.state n))
    (hQ : ∀ n, Q (r.state n) → Q' (r.state n)) : r.LeadsTo P' Q' := by
  intro n hn
  obtain ⟨m, hnm, hm⟩ := h n (hP n hn)
  exact ⟨m, hnm, hQ m hm⟩

/-- An executed sequence of actions and then a run: one of its states is met before every action of the
sequence, checked by `ok`, and the others are those of the run. -/
lemma exists_of_exec {ok : σ → α → Bool} {as : List α} {s : σ} {r : EndlessRun step}
    (h : exec step ok s as = some (r.state 0)) : ∃ r' : EndlessRun step, r'.state 0 = s ∧
      (∀ n, (∃ a, r'.action n = a ∧ ok (r'.state n) a = true) ∨
        ∃ m, r'.state n = r.state m ∧ r'.action n = r.action m) ∧
      ∀ m, r'.state (as.length + m) = r.state m ∧ r'.action (as.length + m) = r.action m := by
  induction as generalizing s with
  | nil =>
    obtain rfl : s = r.state 0 := by simpa [exec] using h
    exact ⟨r, rfl, fun n => .inr ⟨n, rfl, rfl⟩, fun m => by
      rw [List.length_nil, Nat.zero_add]
      exact ⟨rfl, rfl⟩⟩
  | cons a as ih =>
    simp only [exec] at h
    split_ifs at h with hok
    obtain ⟨s₁, hs₁, hrest⟩ := Option.bind_eq_some_iff.mp h
    obtain ⟨r₁, rfl, hstates, hlater⟩ := ih hrest
    refine ⟨.cons s a r₁ hs₁, rfl, fun n => ?_, fun m => ?_⟩
    · cases n with
      | zero => exact .inl ⟨a, rfl, hok⟩
      | succ n => exact hstates n
    · rw [List.length_cons, Nat.add_right_comm]
      exact hlater m

/-- What stays until something happens, which comes if it stays for ever, is still there when that happens. -/
lemma exists_taken {P E : ℕ → Prop} {n : ℕ} (hn : P n) (hkeep : ∀ m, n ≤ m → P m → ¬ E m → P (m + 1))
    (hfair : (∀ m, n ≤ m → P m) → ∃ m, n ≤ m ∧ E m) : ∃ m, n ≤ m ∧ P m ∧ E m := by
  by_contra hnever
  have hnot : ∀ m, n ≤ m → P m → ¬ E m := fun m hnm hm he => hnever ⟨m, hnm, hm, he⟩
  have hstays : ∀ m, n ≤ m → P m := by
    intro m hnm
    induction hnm with
    | refl => exact hn
    | step hnm ih => exact hkeep _ hnm ih (hnot _ hnm ih)
  obtain ⟨m, hnm, he⟩ := hfair hstays
  exact hnot m hnm (hstays m hnm) he

/-- What a rank pays for: if it never grows, and falls whenever something happens, that happens only finitely
often. -/
lemma eventually_not_of_rank (rank : ℕ → ℕ) {E : ℕ → Prop} {n : ℕ}
    (hle : ∀ m, n ≤ m → rank (m + 1) ≤ rank m) (hlt : ∀ m, n ≤ m → E m → rank (m + 1) < rank m) :
    ∃ k, n ≤ k ∧ ∀ m, k ≤ m → ¬ E m := by
  induction hr : rank n using Nat.strongRecOn generalizing n with
  | ind c ih =>
    by_cases hE : ∃ m, n ≤ m ∧ E m
    · obtain ⟨m, hnm, hm⟩ := hE
      have hanti : rank m ≤ rank n := by
        clear hm
        induction hnm with
        | refl => exact Nat.le_refl _
        | step hnj hj => exact Nat.le_trans (hle _ hnj) hj
      have hfalls : rank (m + 1) < c := hr ▸ Nat.lt_of_lt_of_le (hlt m hnm hm) hanti
      have hle' : ∀ j, m + 1 ≤ j → rank (j + 1) ≤ rank j := fun j hj => hle j (by omega)
      obtain ⟨k, hmk, hk⟩ := ih _ hfalls hle' (fun j hj => hlt j (by omega)) rfl
      exact ⟨k, by omega, hk⟩
    · exact ⟨n, Nat.le_refl n, fun m hnm hm => hE ⟨m, hnm, hm⟩⟩

/-- What holds at all later times is reached. -/
lemma leadsTo_of_later {n₀ : ℕ} (h : ∀ m, Q (r.state (n₀ + m))) : r.LeadsTo P Q := fun n _ =>
  ⟨n₀ + n, Nat.le_add_left .., h n⟩

end EndlessRun

end Epox

import Mathlib.Tactic.Common

/-!
# Runs of a machine

A machine is a partial step function `step : σ → α → Option σ`; the second argument is whatever the
environment decides (the code that calls the machine, the kernel, other threads).

`ReachableUnder step start C` are the states of the runs that begin in `start` and all of whose steps
meet the condition `C` on the state before the step and the action.  `ReachableUnder.invariant` is the
invariant rule, and `ReachableUnder.of_exec` turns an executed sequence of actions into a reachable
state.
-/

namespace Epox

variable {σ α : Type*}

/-! ## States reached by runs -/

/-- A state of a run from `start` all of whose steps meet the condition `C`. -/
inductive ReachableUnder (step : σ → α → Option σ) (start : σ → Prop) (C : σ → α → Prop) : σ → Prop
  | init {s : σ} (h : start s) : ReachableUnder step start C s
  | next {s s' : σ} {a : α} (h : ReachableUnder step start C s) (hC : C s a)
      (hs : step s a = some s') : ReachableUnder step start C s'

/-- A state of a run from `start`. -/
abbrev Reachable (step : σ → α → Option σ) (start : σ → Prop) : σ → Prop :=
  ReachableUnder step start fun _ _ => True

variable {step : σ → α → Option σ} {start : σ → Prop} {C D : σ → α → Prop}

/-- What holds initially and is preserved by every step of the run holds in every state of it. -/
theorem ReachableUnder.invariant {P : σ → Prop} (h0 : ∀ s, start s → P s)
    (hstep : ∀ s a s', ReachableUnder step start C s → P s → C s a → step s a = some s' → P s')
    {s : σ} (h : ReachableUnder step start C s) : P s := by
  induction h with
  | init h => exact h0 _ h
  | next h hC hs ih => exact hstep _ _ _ h ih hC hs

/-- A run whose steps meet a stronger condition. -/
lemma ReachableUnder.mono (hCD : ∀ s a, C s a → D s a) {s : σ}
    (h : ReachableUnder step start C s) : ReachableUnder step start D s := by
  induction h with
  | init h => exact .init h
  | next _ hC hs ih => exact .next ih (hCD _ _ hC) hs

/-- A run from a state of a larger set of starts. -/
lemma ReachableUnder.mono_start {start' : σ → Prop} (hstart : ∀ s, start s → start' s) {s : σ}
    (h : ReachableUnder step start C s) : ReachableUnder step start' C s := by
  induction h with
  | init h => exact .init (hstart _ h)
  | next _ hC hs ih => exact .next ih hC hs

/-- A run that goes on from a state of a run. -/
lemma ReachableUnder.flatten {s : σ} (h : ReachableUnder step (ReachableUnder step start C) C s) :
    ReachableUnder step start C s := by
  induction h with
  | init h => exact h
  | next _ hC hs ih => exact .next ih hC hs

/-- Every run is a run. -/
lemma ReachableUnder.reachable {s : σ} (h : ReachableUnder step start C s) :
    Reachable step start s :=
  h.mono fun _ _ _ => trivial

/-- What a machine reaches, another one reaches that takes a step for each of its steps. -/
lemma ReachableUnder.map {τ β : Type*} {step' : τ → β → Option τ} {start' : τ → Prop} {D : τ → β → Prop}
    {f : σ → τ} {g : σ → α → β} (h0 : ∀ s, start s → start' (f s))
    (hstep : ∀ s a s', C s a → step s a = some s' → D (f s) (g s a) ∧ step' (f s) (g s a) = some (f s'))
    {s : σ} (h : ReachableUnder step start C s) : ReachableUnder step' start' D (f s) := by
  induction h with
  | init h => exact .init (h0 _ h)
  | next _ hC hs ih =>
    obtain ⟨hD, hs'⟩ := hstep _ _ _ hC hs
    exact .next ih hD hs'

/-! ## Observers -/

section Observe

variable {γ : Type*} {next : σ → α → σ → γ → γ} {g₀ : γ}

/-- The machine together with an observer, whose state follows the steps and never hinders them. -/
def observe (step : σ → α → Option σ) (next : σ → α → σ → γ → γ) (p : σ × γ) (a : α) :
    Option (σ × γ) :=
  (step p.1 a).map fun s' => (s', next p.1 a s' p.2)

/-- A step of an observed machine. -/
lemma observe_eq_some {p p' : σ × γ} {a : α} : observe step next p a = some p' ↔
    step p.1 a = some p'.1 ∧ p'.2 = next p.1 a p'.1 p.2 := by
  simp only [observe, Option.map_eq_some_iff]
  constructor
  · rintro ⟨s', hs, rfl⟩
    exact ⟨hs, rfl⟩
  · rintro ⟨hs, hg⟩
    exact ⟨p'.1, hs, Prod.ext rfl hg.symm⟩

/-- What an observed machine reaches in steps that meet a condition, the machine reaches so. -/
lemma ReachableUnder.under_of_observe {D : σ × γ → α → Prop} {p : σ × γ}
    (h : ReachableUnder (observe step next) (fun p => start p.1 ∧ p.2 = g₀) D p)
    (hD : ∀ p a, D p a → C p.1 a) : ReachableUnder step start C p.1 := by
  induction h with
  | init h => exact .init h.1
  | next _ hC hs ih => exact .next ih (hD _ _ hC) (observe_eq_some.mp hs).1

/-- What an observed machine reaches, the machine reaches. -/
lemma ReachableUnder.of_observe {D : σ × γ → α → Prop} {p : σ × γ}
    (h : ReachableUnder (observe step next) (fun p => start p.1 ∧ p.2 = g₀) D p) :
    Reachable step start p.1 :=
  h.under_of_observe fun _ _ _ => trivial

end Observe

/-! ## Executing a sequence of actions -/

/-- Execute a sequence of actions, checking `ok` before each of them. -/
def exec (step : σ → α → Option σ) (ok : σ → α → Bool) (s : σ) : List α → Option σ
  | [] => some s
  | a :: as => if ok s a then (step s a).bind fun s' => exec step ok s' as else none

/-- One action is executed. -/
lemma exec_singleton {s : σ} {a : α} : exec step (fun _ _ => true) s [a] = step s a := by
  simp [exec]

/-- Two actions are executed. -/
lemma exec_pair {s s' : σ} {a b : α} :
    exec step (fun _ _ => true) s [a, b] = some s' ↔ ∃ s₁, step s a = some s₁ ∧ step s₁ b = some s' := by
  simp [exec, Option.bind_eq_some_iff]

/-- The state after an executed sequence is reached by a run whose steps meet the condition that was
checked. -/
lemma ReachableUnder.of_exec {ok : σ → α → Bool} (hok : ∀ s a, ok s a = true → C s a) {as : List α}
    {s s' : σ} (h : ReachableUnder step start C s) (hexec : exec step ok s as = some s') :
    ReachableUnder step start C s' := by
  induction as generalizing s with
  | nil =>
    obtain rfl : s = s' := by simpa [exec] using hexec
    exact h
  | cons a as ih =>
    simp only [exec] at hexec
    split at hexec
    · rename_i hsa
      obtain ⟨s₁, hs₁, hrest⟩ := Option.bind_eq_some_iff.mp hexec
      exact ih (.next h (hok s a hsa) hs₁) hrest
    · exact absurd hexec (by simp)

/-- A state with a property that an executed sequence shows to be reached. -/
lemma ReachableUnder.exists_of_exec (ok : σ → α → Bool) (hok : ∀ s a, ok s a = true → C s a) {s : σ}
    (h : start s) (as : List α) {P : σ → Bool} (hP : (exec step ok s as).any P = true) :
    ∃ s', ReachableUnder step start C s' ∧ P s' = true := by
  obtain ⟨s', hexec, hs'⟩ := (Option.any_eq_true _ _).mp hP
  exact ⟨s', .of_exec hok (.init h) hexec, hs'⟩

/-- The same, with the condition itself checked before every step. -/
lemma ReachableUnder.exists_run (step : σ → α → Option σ) (C : σ → α → Prop)
    [∀ s a, Decidable (C s a)] {s : σ} (h : start s) (as : List α) {P : σ → Bool}
    (hP : (exec step (fun s a => decide (C s a)) s as).any P = true) :
    ∃ s', ReachableUnder step start C s' ∧ P s' = true :=
  exists_of_exec _ (fun _ _ => of_decide_eq_true) h as hP

/-- The same, with no condition. -/
lemma ReachableUnder.exists_free_run (step : σ → α → Option σ) {s : σ} (h : start s) (as : List α)
    {P : σ → Bool} (hP : (exec step (fun _ _ => true) s as).any P = true) :
    ∃ s', Reachable step start s' ∧ P s' = true :=
  exists_of_exec _ (fun _ _ _ => trivial) h as hP

end Epox

import Epox.Foundation.Progress
import Mathlib.Data.Nat.Nth

/-!
# Parts of a machine

A machine may have another one as a part: an action of the whole comes with an action of the part, or leaves
the part as it is.  What the whole reaches, its part reaches (`IsPart.reachableUnder`), and an endless run of
the whole in which the part never stops for good is an endless run of the part (`IsPart.exists_run`).
-/

namespace Epox

variable {σ α τ β : Type*} {step : σ → α → Option σ} {small : τ → β → Option τ} {proj : σ → τ}
  {label : σ → α → Option β} {start : σ → Prop}

/-- A step of the part, if there is one. -/
def advance (small : τ → β → Option τ) (s : τ) : Option β → Option τ
  | none => some s
  | some b => small s b

/-- Every step of the whole is a step of the part or leaves it alone. -/
def IsPart (step : σ → α → Option σ) (small : τ → β → Option τ) (proj : σ → τ)
    (label : σ → α → Option β) : Prop :=
  ∀ s a s', step s a = some s' → advance small (proj s) (label s a) = some (proj s')

/-- What the whole reaches, the part reaches. -/
lemma IsPart.reachableUnder {start' : τ → Prop} {C : σ → α → Prop} {D : τ → β → Prop}
    (h : IsPart step small proj label) (hstart : ∀ s, start s → start' (proj s))
    (hC : ∀ s a b, C s a → label s a = some b → D (proj s) b) {s : σ}
    (hs : ReachableUnder step start C s) : ReachableUnder small start' D (proj s) := by
  induction hs with
  | init hs => exact .init (hstart _ hs)
  | @next s s' a _ hCa hs ih =>
    have hpart := h s a s' hs
    cases hlabel : label s a with
    | none =>
      rw [hlabel] at hpart
      exact Option.some.inj hpart ▸ ih
    | some b =>
      rw [hlabel] at hpart
      exact .next ih (hC s a b hCa hlabel) hpart

namespace EndlessRun

variable {r : EndlessRun step}

/-- The part takes a step at that time. -/
def Moves (r : EndlessRun step) (label : σ → α → Option β) (n : ℕ) : Prop :=
  label (r.state n) (r.action n) ≠ none

/-- As long as the part takes no step, it stays as it is. -/
lemma proj_eq (r : EndlessRun step) (h : IsPart step small proj label) {n m : ℕ} (hnm : n ≤ m)
    (hstill : ∀ i, n ≤ i → i < m → ¬ r.Moves label i) : proj (r.state m) = proj (r.state n) := by
  induction m, hnm using Nat.le_induction with
  | base => rfl
  | succ m hnm ih =>
    have hlabel : label (r.state m) (r.action m) = none := not_not.mp (hstill m hnm (Nat.lt_succ_self m))
    have hpart := h _ _ _ (r.next m)
    rw [hlabel] at hpart
    exact (Option.some.inj hpart).symm.trans (ih fun i hi him => hstill i hi (him.trans (Nat.lt_succ_self m)))

end EndlessRun

/-- In an endless run of the whole in which the part never stops for good, the part takes its steps in an
endless run of its own, the one number `k` at time `f k`. -/
theorem IsPart.exists_run (h : IsPart step small proj label) (r : EndlessRun step)
    (hmoves : ∀ n, ∃ m, n ≤ m ∧ r.Moves label m) :
    ∃ (r' : EndlessRun small) (f : ℕ → ℕ), StrictMono f ∧
      (∀ k, label (r.state (f k)) (r.action (f k)) = some (r'.action k) ∧
        r'.state k = proj (r.state (f k)) ∧ r'.state (k + 1) = proj (r.state (f k + 1))) ∧
      ∀ n, ∃ k, r'.state k = proj (r.state n) ∧ (∀ j, k ≤ j → n ≤ f j) ∧
        ∀ m, n ≤ m → r.Moves label m → ∃ j, k ≤ j ∧ f j = m := by
  classical
  have hinf : (Set.ofPred (r.Moves label)).Infinite :=
    Set.infinite_of_forall_exists_gt fun n =>
      have ⟨m, hm, hp⟩ := hmoves (n + 1)
      ⟨m, hp, hm⟩
  let f := Nat.nth (r.Moves label)
  have hf : ∀ k, r.Moves label (f k) := Nat.nth_mem_of_infinite hinf
  have hmono : StrictMono f := Nat.nth_strictMono hinf
  have honto : ∀ m, r.Moves label m → f (Nat.count (r.Moves label) m) = m := fun m hm => Nat.nth_count hm
  choose b hb using fun k => Option.ne_none_iff_exists'.mp (hf k)
  -- Between two of its steps the part stays as it is.
  have hnext : ∀ k, proj (r.state (f (k + 1))) = proj (r.state (f k + 1)) := fun k =>
    r.proj_eq h (hmono (Nat.lt_succ_self k)) fun i hi hik hm => by
      rw [← honto i hm] at hi hik
      have hlt := hmono.lt_iff_lt.mp hi
      have hlt' := hmono.lt_iff_lt.mp hik
      omega
  have hstep : ∀ k, small (proj (r.state (f k))) (b k) = some (proj (r.state (f (k + 1)))) := fun k => by
    have hpart := h _ _ _ (r.next (f k))
    rw [hb k] at hpart
    rw [hnext k]
    exact hpart
  refine ⟨⟨fun k => proj (r.state (f k)), b, hstep⟩, f, hmono, fun k => ⟨hb k, rfl, hnext k⟩, fun n => ?_⟩
  have hle : n ≤ f (Nat.count (r.Moves label) n) := Nat.le_nth_count hinf n
  refine ⟨Nat.count (r.Moves label) n, r.proj_eq h hle fun i hi hik hm => ?_,
    fun j hj => hle.trans (hmono.monotone hj), fun m hm hmoves => ⟨_, Nat.count_monotone _ hm, honto m hmoves⟩⟩
  rw [← honto i hm] at hik
  exact absurd (Nat.count_monotone _ hi) (hmono.lt_iff_lt.mp hik).not_ge

end Epox

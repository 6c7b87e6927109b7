import Mathlib.Tactic.Common

/-!
# Histories

A history is the list of the events that have occurred, newest first.  `Since p q h` and `After p q h`
are the two ways in which the order of events is spoken of: a `p` has occurred and no `q` since the
last one; a `q` has occurred after some `p`.  `Each P h` says something of every event and the history
before it.
-/

namespace Epox

variable {ε : Type*}

/-! ## Since -/

/-- An event of kind `p` has occurred, and since the last one no event of kind `q`. -/
def Since (p q : ε → Prop) : List ε → Prop
  | [] => False
  | e :: h => p e ∨ ¬ q e ∧ Since p q h

@[simp] lemma since_nil (p q : ε → Prop) : ¬ Since p q [] := id

@[simp] lemma since_cons {p q : ε → Prop} {e : ε} {h : List ε} :
    Since p q (e :: h) ↔ p e ∨ ¬ q e ∧ Since p q h := Iff.rfl

instance decidableSince {p q : ε → Prop} [DecidablePred p] [DecidablePred q] :
    (h : List ε) → Decidable (Since p q h)
  | [] => .isFalse id
  | e :: h =>
    have := decidableSince (p := p) (q := q) h
    inferInstanceAs (Decidable (p e ∨ ¬ q e ∧ Since p q h))

/-- A history of which only some events are seen. -/
lemma since_filterMap {δ : Type*} {f : ε → Option δ} {p q : δ → Prop} {p' q' : ε → Prop}
    (hp : ∀ e, p' e ↔ ∃ x, f e = some x ∧ p x) (hq : ∀ e, q' e ↔ ∃ x, f e = some x ∧ q x) {h : List ε} :
    Since p q (h.filterMap f) ↔ Since p' q' h := by
  induction h with
  | nil => exact Iff.rfl
  | cons e h ih =>
    rw [since_cons, hp, hq, ← ih]
    cases hf : f e with
    | none => simp [hf]
    | some x => simp [hf]

/-! ## After -/

/-- An event of kind `q` has occurred after one of kind `p`. -/
def After (p q : ε → Prop) : List ε → Prop
  | [] => False
  | e :: h => (q e ∧ ∃ x ∈ h, p x) ∨ After p q h

@[simp] lemma after_nil (p q : ε → Prop) : ¬ After p q [] := id

@[simp] lemma after_cons {p q : ε → Prop} {e : ε} {h : List ε} :
    After p q (e :: h) ↔ (q e ∧ ∃ x ∈ h, p x) ∨ After p q h := Iff.rfl

/-- Nothing has occurred after what has not occurred. -/
lemma not_after_of_notMem {q : ε → Prop} {x : ε} {h : List ε} (hx : x ∉ h) : ¬ After (· = x) q h := by
  induction h with
  | nil => exact id
  | cons e h ih =>
    rw [List.mem_cons, not_or] at hx
    rw [after_cons]
    rintro (⟨-, y, hy, rfl⟩ | hafter)
    · exact hx.2 hy
    · exact ih hx.2 hafter

instance decidableAfter {p q : ε → Prop} [DecidablePred p] [DecidablePred q] :
    (h : List ε) → Decidable (After p q h)
  | [] => .isFalse id
  | e :: h =>
    have := decidableAfter (p := p) (q := q) h
    inferInstanceAs (Decidable ((q e ∧ ∃ x ∈ h, p x) ∨ After p q h))

/-! ## Each -/

/-- Every event meets a condition, with the history before it. -/
def Each (P : ε → List ε → Prop) : List ε → Prop
  | [] => True
  | e :: h => P e h ∧ Each P h

@[simp] lemma each_nil (P : ε → List ε → Prop) : Each P [] := trivial

@[simp] lemma each_cons {P : ε → List ε → Prop} {e : ε} {h : List ε} :
    Each P (e :: h) ↔ P e h ∧ Each P h := Iff.rfl

end Epox

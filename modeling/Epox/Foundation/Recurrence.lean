import Mathlib.Algebra.Order.BigOperators.Group.Finset
import Mathlib.Data.List.Infix
import Mathlib.Tactic.Common

/-!
# Recurrences

`RecursWithin n p l` says that among any `n + 1` consecutive entries of the list `l` one has the property
`p`.  It is checked entry by entry with a counter: `streak p l` is the number of entries at the front that
come before the first one with the property (`recursWithin_cons`).

If the entries carry labels and the property recurs within `n` among the entries of each label, then it
recurs within `n * k` among the entries of any `k` labels, however these entries are mixed
(`RecursWithin.of_labels`).
-/

namespace Epox

variable {α ι : Type*} {n : ℕ} {p : α → Prop} {l : List α}

/-- Among any `n + 1` consecutive entries one has the property. -/
def RecursWithin (n : ℕ) (p : α → Prop) (l : List α) : Prop :=
  ∀ w, w <:+: l → n < w.length → ∃ x ∈ w, p x

lemma recursWithin_nil : RecursWithin n p [] := by
  intro w hw hn
  simp [List.infix_nil.mp hw] at hn

/-! ## Streaks -/

section Streak

variable [DecidablePred p]

/-- The number of entries at the front of the list that lack the property. -/
def streak (p : α → Prop) [DecidablePred p] : List α → ℕ
  | [] => 0
  | x :: l => if p x then 0 else streak p l + 1

@[simp] lemma streak_nil : streak p [] = 0 := rfl

@[simp] lemma streak_cons_of_pos {x : α} (h : p x) : streak p (x :: l) = 0 := if_pos h

@[simp] lemma streak_cons_of_neg {x : α} (h : ¬ p x) : streak p (x :: l) = streak p l + 1 := if_neg h

/-- A prefix that is longer than the streak has an entry with the property. -/
lemma exists_of_streak_lt {w : List α} (hw : w <+: l) (h : streak p l < w.length) : ∃ x ∈ w, p x := by
  induction l generalizing w with
  | nil => simp [List.prefix_nil.mp hw] at h
  | cons y l ih =>
    cases w with
    | nil => simp at h
    | cons x w =>
      obtain ⟨rfl, hrest⟩ := List.cons_prefix_cons.mp hw
      by_cases hx : p x
      · exact ⟨x, List.mem_cons_self .., hx⟩
      · rw [streak_cons_of_neg hx, List.length_cons] at h
        have hlt : streak p l < w.length := by omega
        obtain ⟨y, hy, hpy⟩ := ih hrest hlt
        exact ⟨y, List.mem_cons_of_mem _ hy, hpy⟩

/-- The entries of a streak lack the property. -/
lemma exists_prefix_of_streak (p : α → Prop) [DecidablePred p] (l : List α) :
    ∃ w, w <+: l ∧ w.length = streak p l ∧ ∀ x ∈ w, ¬ p x := by
  induction l with
  | nil => exact ⟨[], List.prefix_rfl, rfl, by simp⟩
  | cons y l ih =>
    by_cases hy : p y
    · exact ⟨[], List.nil_prefix, by simp [hy], by simp⟩
    · obtain ⟨w, hw, hlen, hnot⟩ := ih
      refine ⟨y :: w, List.cons_prefix_cons.mpr ⟨rfl, hw⟩, by simp [hy, hlen], fun x hx => ?_⟩
      rcases List.mem_cons.mp hx with rfl | hx
      · exact hy
      · exact hnot x hx

/-- The property recurs if the streak at the front is short and it recurs behind the front. -/
lemma recursWithin_cons {x : α} :
    RecursWithin n p (x :: l) ↔ streak p (x :: l) ≤ n ∧ RecursWithin n p l := by
  constructor
  · intro h
    refine ⟨?_, fun w hw => h w (List.infix_cons_iff.mpr (.inr hw))⟩
    by_contra hn
    obtain ⟨w, hw, hlen, hnot⟩ := exists_prefix_of_streak p (x :: l)
    obtain ⟨y, hy, hpy⟩ := h w hw.isInfix (by omega)
    exact hnot y hy hpy
  · rintro ⟨hstreak, h⟩ w hw hn
    rcases List.infix_cons_iff.mp hw with hw | hw
    · exact exists_of_streak_lt hw (by omega)
    · exact h w hw hn

end Streak

/-! ## Labels -/

/-- In a list with more than `n` entries for each of some labels, one of these labels has more than `n`
entries. -/
lemma exists_label_of_length [DecidableEq ι] {label : α → ι} {S : Finset ι} (hS : ∀ x ∈ l, label x ∈ S)
    (h : n * S.card < l.length) : ∃ i ∈ S, n < (l.filter fun x => label x = i).length := by
  have hcount : ∀ i, (l.filter fun x => label x = i).length = (l.map label : Multiset ι).count i := by
    intro i
    rw [Multiset.coe_count, List.count, List.countP_map, List.countP_eq_length_filter]
    rfl
  have hsum : ∑ i ∈ S, (l.filter fun x => label x = i).length = l.length := by
    simp only [hcount]
    rw [Multiset.sum_count_eq_card]
    · simp
    · intro i hi
      obtain ⟨x, hx, rfl⟩ := by simpa using hi
      exact hS x hx
  refine Finset.exists_lt_of_sum_lt ?_
  rwa [Finset.sum_const, Nat.nsmul_eq_mul, Nat.mul_comm, hsum]

/-- What recurs within `n` among the entries of each of some labels recurs within `n` times their number
among the entries of all of them. -/
theorem RecursWithin.of_labels [DecidableEq ι] {label : α → ι} {S : Finset ι}
    (h : ∀ i ∈ S, RecursWithin n p (l.filter fun x => label x = i)) :
    RecursWithin (n * S.card) p (l.filter fun x => label x ∈ S) := by
  intro w hw hn
  have hS : ∀ x ∈ w, label x ∈ S := fun x hx => by
    simpa using (List.mem_filter.mp (hw.subset hx)).2
  obtain ⟨i, hi, hlen⟩ := exists_label_of_length hS hn
  have hfilter : (l.filter fun x => label x ∈ S).filter (fun x => label x = i) =
      l.filter fun x => label x = i := by
    rw [List.filter_filter]
    refine List.filter_congr fun x _ => ?_
    by_cases hx : label x = i <;> simp [hx, hi]
  obtain ⟨x, hx, hpx⟩ := h i hi _ (hfilter ▸ hw.filter _) hlen
  exact ⟨x, (List.mem_filter.mp hx).1, hpx⟩

end Epox

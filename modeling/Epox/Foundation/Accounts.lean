import Mathlib.Data.Multiset.AddSub
import Mathlib.Data.Multiset.UnionInter
import Mathlib.Tactic.Common

/-!
# Accounts of references

A reference is made once, is then held by somebody, and is released at the end.  The accounts are
`Balanced` if no reference has been made twice and those that are held and those that have been released
are together those that have been made.  Who holds a reference does not matter: to hand one over changes
nothing.
-/

namespace Epox

variable {ρ : Type*} {made held released : Multiset ρ} {r : ρ}

/-- Every reference has been made once and is either held or has been released, once. -/
structure Balanced (made held released : Multiset ρ) : Prop where
  nodup : made.Nodup
  balance : held + released = made

/-- Nothing has been made. -/
lemma balanced_zero : Balanced (0 : Multiset ρ) 0 0 := ⟨Multiset.nodup_zero, rfl⟩

namespace Balanced

/-- A reference is made. -/
lemma make (h : Balanced made held released) (hr : r ∉ made) :
    Balanced (r ::ₘ made) (r ::ₘ held) released where
  nodup := Multiset.nodup_cons.mpr ⟨hr, h.nodup⟩
  balance := by rw [Multiset.cons_add, h.balance]

/-- A reference is released. -/
lemma release (h : Balanced made (r ::ₘ held) released) : Balanced made held (r ::ₘ released) where
  nodup := h.nodup
  balance := by rw [Multiset.add_cons, ← Multiset.cons_add, h.balance]

/-- A reference that is held has been made. -/
lemma mem_made (h : Balanced made held released) (hr : r ∈ held) : r ∈ made := by
  rw [← h.balance]
  exact Multiset.mem_add.mpr (.inl hr)

/-- No reference is released twice. -/
lemma nodup_released (h : Balanced made held released) : released.Nodup :=
  Multiset.nodup_of_le (h.balance ▸ Multiset.le_add_left ..) h.nodup

/-- A reference has been released exactly if nobody holds it any more. -/
lemma mem_released_iff (h : Balanced made held released) (hr : r ∈ made) :
    r ∈ released ↔ r ∉ held := by
  have hnodup := h.nodup
  rw [← h.balance, Multiset.nodup_add] at hnodup
  rw [← h.balance, Multiset.mem_add] at hr
  constructor
  · exact fun hreleased hheld => Multiset.disjoint_left.mp hnodup.2.2 hheld hreleased
  · exact hr.resolve_left

end Balanced

end Epox

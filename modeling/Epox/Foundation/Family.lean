import Mathlib.Data.List.Nodup
import Mathlib.Logic.Function.Basic
import Mathlib.Tactic.Common

/-!
# Families of disjoint queues

A `Family Q E` maps every queue of `Q` to a list of elements of `E` such that no element occurs twice
in one list or in two lists.  The second condition is kept by recording for every element the queue
that holds it, if any (`home`).

The operations are `release` (take an element out of whatever queue holds it), `push` (move an
element to the back of a queue) and `pop` (take the front of a queue).
-/

namespace Epox

/-- Pairwise disjoint lists without repetitions, indexed by `Q`. -/
structure Family (Q E : Type*) where
  /-- The elements of a queue, front first. -/
  list : Q → List E
  /-- The queue that holds an element. -/
  home : E → Option Q
  mem_list : ∀ q e, e ∈ list q ↔ home e = some q
  nodup : ∀ q, (list q).Nodup

namespace Family

variable {Q E : Type*}

/-- All queues are empty. -/
def empty : Family Q E where
  list _ := []
  home _ := none
  mem_list := by simp
  nodup := by simp

@[simp] lemma home_empty (e : E) : (empty : Family Q E).home e = none := rfl

@[simp] lemma list_empty (q : Q) : (empty : Family Q E).list q = [] := rfl

/-- The front of a queue is held by it. -/
lemma home_of_head? {F : Family Q E} {q : Q} {e : E} (h : (F.list q).head? = some e) :
    F.home e = some q :=
  (F.mem_list q e).mp (List.mem_of_mem_head? h)

/-- No two queues hold the same element. -/
lemma disjoint (F : Family Q E) {p q : Q} (h : p ≠ q) : List.Disjoint (F.list p) (F.list q) := by
  intro e hp hq
  rw [F.mem_list] at hp hq
  exact h (Option.some.inj (hp.symm.trans hq))

/-- A family is determined by its lists and homes. -/
lemma ext' {F G : Family Q E} (hlist : F.list = G.list) (hhome : F.home = G.home) : F = G := by
  cases F
  cases G
  simp_all

/-! ## Taking elements out -/

section Release

variable [DecidableEq E]

/-- Take an element out of the queue that holds it, if any. -/
def release (F : Family Q E) (e : E) : Family Q E where
  list q := (F.list q).erase e
  home := Function.update F.home e none
  mem_list q x := by
    rw [(F.nodup q).mem_erase_iff, F.mem_list, Function.update_apply]
    by_cases h : x = e <;> simp [h]
  nodup q := (F.nodup q).erase e

/-- Take the front element of `q`. -/
def pop (F : Family Q E) (q : Q) : Option (E × Family Q E) :=
  (F.list q).head?.map fun e => (e, F.release e)

/-- Releasing an element leaves every other element where it was. -/
lemma home_release (F : Family Q E) (e x : E) :
    (F.release e).home x = if x = e then none else F.home x := by
  simp [release, Function.update_apply]

@[simp] lemma home_release_self (F : Family Q E) (e : E) : (F.release e).home e = none := by
  simp [home_release]

/-- A queue that does not hold an element is not changed by its release. -/
lemma list_release_of_home_ne {F : Family Q E} {e : E} {q : Q} (h : F.home e ≠ some q) :
    (F.release e).list q = F.list q :=
  List.erase_of_not_mem fun hm => h ((F.mem_list q e).mp hm)

/-- Releasing an element that no queue holds changes nothing. -/
lemma release_of_home_none {F : Family Q E} {e : E} (h : F.home e = none) : F.release e = F := by
  refine ext' (funext fun q => list_release_of_home_ne (by simp [h])) ?_
  simp [release, ← h]

/-- Nothing can be popped exactly from an empty queue. -/
lemma pop_eq_none_iff {F : Family Q E} {q : Q} : F.pop q = none ↔ F.list q = [] := by
  simp [pop]

/-- A pop yields the front of the queue and releases it. -/
lemma pop_eq_some_iff {F G : Family Q E} {q : Q} {e : E} :
    F.pop q = some (e, G) ↔ (F.list q).head? = some e ∧ G = F.release e := by
  simp only [pop, Option.map_eq_some_iff, Prod.mk.injEq]
  constructor
  · rintro ⟨x, hx, rfl, rfl⟩
    exact ⟨hx, rfl⟩
  · rintro ⟨hx, rfl⟩
    exact ⟨e, hx, rfl, rfl⟩

end Release

/-! ## Pushing an element -/

section Push

variable [DecidableEq Q] [DecidableEq E]

/-- Move an element from the queue that holds it, if any, to the back of `q`. -/
def push (F : Family Q E) (q : Q) (e : E) : Family Q E where
  list := Function.update (F.release e).list q ((F.release e).list q ++ [e])
  home := Function.update F.home e (some q)
  mem_list p x := by
    have hmem := (F.release e).mem_list
    simp only [release, Function.update_apply] at hmem ⊢
    by_cases hp : p = q
    · subst hp
      by_cases hx : x = e <;> simp [hx, hmem]
    · by_cases hx : x = e
      · simp [hp, hx, hmem, Ne.symm hp]
      · simp [hp, hx, hmem]
  nodup p := by
    by_cases hp : p = q
    · subst hp
      rw [Function.update_self, List.nodup_append]
      refine ⟨(F.release e).nodup p, by simp, ?_⟩
      intro x hx y hy
      rw [(F.release e).mem_list] at hx
      rintro rfl
      simp_all [release]
    · rw [Function.update_of_ne hp]
      exact (F.release e).nodup p

/-- Pushing an element leaves every other element where it was. -/
lemma home_push (F : Family Q E) (q : Q) (e x : E) :
    (F.push q e).home x = if x = e then some q else F.home x := by
  simp [push, Function.update_apply]

@[simp] lemma home_push_self (F : Family Q E) (q : Q) (e : E) :
    (F.push q e).home e = some q := by
  simp [home_push]

/-- A push adds the element at the back of its queue. -/
lemma list_push_self (F : Family Q E) (q : Q) (e : E) :
    (F.push q e).list q = (F.release e).list q ++ [e] := by
  simp [push]

/-- A push to `q` changes any other queue only by taking the element out of it. -/
lemma list_push_of_ne {F : Family Q E} {p q : Q} (e : E) (h : p ≠ q) :
    (F.push q e).list p = (F.release e).list p := by
  simp [push, h]

end Push

end Family

end Epox

import Mathlib.Data.List.Basic
import Mathlib.Tactic.Common

/-!
# Descriptors and interest sets

What `epoll_ctl(2)` and `close(2)` do to the interest set of an epoll instance.  A number refers to an
open file; an open file lives as long as some descriptor for it is left, in the process or elsewhere.
An entry of the interest set belongs to a number *and* the open file that the number referred to when
the entry was added.  It disappears when it is deleted while its number still refers to its file, or
when the last descriptor for the file is closed, and in no other way.
-/

namespace Epox

variable {φ δ : Type*}

/-- The descriptors for open files: those of the process with their numbers, and those held elsewhere
(by other processes, or on their way to one). -/
structure Descriptors (φ : Type*) where
  own : List (ℕ × φ)
  elsewhere : List φ

/-- An entry of an interest set. -/
structure Registration (φ δ : Type*) where
  number : ℕ
  file : φ
  data : δ
  deriving DecidableEq

namespace Descriptors

/-- The open file that a number refers to. -/
def file (d : Descriptors φ) (n : ℕ) : Option φ := d.own.lookup n

/-- Some descriptor for the file is left. -/
def IsOpen (d : Descriptors φ) (f : φ) : Prop := f ∈ d.own.map Prod.snd ∨ f ∈ d.elsewhere

instance [DecidableEq φ] (d : Descriptors φ) (f : φ) : Decidable (d.IsOpen f) :=
  inferInstanceAs (Decidable (_ ∨ _))

/-- `open(2)`, `dup(2)` or the like: a number that is not in use gets a file. -/
def install (d : Descriptors φ) (n : ℕ) (f : φ) : Descriptors φ :=
  { d with own := (n, f) :: d.own }

/-- `close(2)`. -/
def close (d : Descriptors φ) (n : ℕ) : Descriptors φ :=
  { d with own := d.own.filter fun e => e.1 ≠ n }

/-- A descriptor for the file is passed on. -/
def share (d : Descriptors φ) (f : φ) : Descriptors φ :=
  { d with elsewhere := f :: d.elsewhere }

/-- A descriptor for the file that is held elsewhere is closed. -/
def unshare [DecidableEq φ] (d : Descriptors φ) (f : φ) : Descriptors φ :=
  { d with elsewhere := d.elsewhere.erase f }

/-- The numbers after a `close(2)`. -/
lemma file_close (d : Descriptors φ) (n m : ℕ) : (d.close n).file m = if m = n then none else d.file m := by
  by_cases hm : m = n
  · rw [if_pos hm, file, List.lookup_eq_none_iff]
    rintro ⟨k, f⟩ he
    have hk : k ≠ n := of_decide_eq_true (List.mem_filter.mp he).2
    simpa [hm] using hk.symm
  · rw [if_neg hm, file, file, close]
    induction d.own with
    | nil => rfl
    | cons e l ih =>
      obtain ⟨k, f⟩ := e
      by_cases hk : k = n
      · have hne : (m == k) = false := by simp [hk, hm]
        rw [List.filter_cons_of_neg (by simp [hk]), List.lookup_cons, hne]
        exact ih
      · rw [List.filter_cons_of_pos (by simp [hk]), List.lookup_cons, List.lookup_cons]
        cases m == k with
        | true => rfl
        | false => exact ih

/-- A file that a number refers to is open. -/
lemma isOpen_of_file {d : Descriptors φ} {n : ℕ} {f : φ} (h : d.file n = some f) : d.IsOpen f := by
  obtain ⟨l₁, l₂, hl, -⟩ := List.lookup_eq_some_iff.mp h
  exact .inl (List.mem_map.mpr ⟨(n, f), by simp [hl], rfl⟩)

end Descriptors

namespace Registration

/-- The entry that an operation on a number is about: its number refers to the file of the entry. -/
def Keyed (r : Registration φ δ) (d : Descriptors φ) (n : ℕ) : Prop :=
  r.number = n ∧ d.file n = some r.file

instance [DecidableEq φ] (r : Registration φ δ) (d : Descriptors φ) (n : ℕ) :
    Decidable (r.Keyed d n) :=
  inferInstanceAs (Decidable (_ ∧ _))

variable [DecidableEq φ] {d : Descriptors φ} {n : ℕ} {l : List (Registration φ δ)}

/-- `EPOLL_CTL_ADD`, with the new interest set if it succeeds.  It fails with `EBADF` for a number that
refers to no file and with `EEXIST` if there is an entry for the number already; whether it succeeds
otherwise is up to the kernel (`ctl`). -/
def add (l : List (Registration φ δ)) (d : Descriptors φ) (n : ℕ) (data : δ) (ctl : Bool) :
    Option (List (Registration φ δ)) :=
  (d.file n).bind fun f =>
    if ctl && !(l.any fun r => r.Keyed d n) then some (l ++ [⟨n, f, data⟩]) else none

/-- `EPOLL_CTL_DEL`; it fails if there is no entry for the number. -/
def delete (l : List (Registration φ δ)) (d : Descriptors φ) (n : ℕ) : List (Registration φ δ) :=
  l.filter fun r => ¬ r.Keyed d n

/-- What is left of an interest set after a descriptor has been closed. -/
def prune (l : List (Registration φ δ)) (d : Descriptors φ) : List (Registration φ δ) :=
  l.filter fun r => d.IsOpen r.file

@[simp] lemma mem_delete {r : Registration φ δ} : r ∈ delete l d n ↔ r ∈ l ∧ ¬ r.Keyed d n := by
  simp [delete]

@[simp] lemma mem_prune {r : Registration φ δ} : r ∈ prune l d ↔ r ∈ l ∧ d.IsOpen r.file := by
  simp [prune]

/-- An entry after an addition is an old one, or the one that was added. -/
lemma mem_of_add {data : δ} {ctl : Bool} {l' : List (Registration φ δ)}
    (h : add l d n data ctl = some l') {r : Registration φ δ} (hr : r ∈ l') :
    r ∈ l ∨ r.data = data := by
  obtain ⟨f, -, h⟩ := Option.bind_eq_some_iff.mp h
  split_ifs at h
  obtain rfl := Option.some.inj h
  rcases List.mem_append.mp hr with hr | hr
  · exact .inl hr
  · exact .inr (by rw [List.mem_singleton.mp hr])

/-- A deletion changes nothing exactly when there is no entry for the number. -/
lemma delete_eq_self_iff : delete l d n = l ↔ ∀ r ∈ l, ¬ r.Keyed d n := by
  simp [delete, List.filter_eq_self]

/-- Closing a descriptor changes nothing exactly when the files of all entries stay open. -/
lemma prune_eq_self_iff : prune l d = l ↔ ∀ r ∈ l, d.IsOpen r.file := by
  simp [prune, List.filter_eq_self]

/-- What is left after a deletion and a close is everything only if each of them left everything. -/
lemma prune_delete_eq_self_iff {d' : Descriptors φ} :
    prune (delete l d n) d' = l ↔ (∀ r ∈ l, ¬ r.Keyed d n) ∧ ∀ r ∈ l, d'.IsOpen r.file := by
  simp only [prune, delete, List.filter_filter, List.filter_eq_self, Bool.and_eq_true,
    decide_eq_true_eq]
  exact ⟨fun h => ⟨fun r hr => (h r hr).2, fun r hr => (h r hr).1⟩, fun h r hr => ⟨h.2 r hr, h.1 r hr⟩⟩

end Registration

end Epox

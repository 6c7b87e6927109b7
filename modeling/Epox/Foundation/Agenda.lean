import Epox.Foundation.History
import Mathlib.Data.Set.Insert
import Mathlib.Logic.Function.Basic
import Mathlib.Order.Basic

/-!
# Agendas

An `Agenda T P` is a scheduler reduced to its purpose.  It knows which tasks are runnable, the fixed
priority of every task (the least element of `P` is the most urgent one) and when each task was last
enqueued.  Enqueueing a task makes it runnable and stamps it with the current time, whether it was
runnable already or not; the task that is selected is the most urgent one, among these the one with the
oldest stamp, and it is no longer runnable.

`Trace start l a` are the runs from `start` to `a` whose labels are `l`, newest first; that all runnable
tasks are given up at once has no label.  `Trace.overtaken` says who is selected while a task waits.
-/

namespace Epox

variable {T P : Type*}

/-- What a scheduler has to know. -/
structure Agenda (T P : Type*) where
  known : Set T
  priority : T → P
  runnable : Set T
  /-- The time of the latest enqueue. -/
  stamp : T → ℕ
  now : ℕ

namespace Agenda

/-- What happens to a task. -/
inductive Label (T : Type*)
  | spawn (t : T)
  | enqueue (t : T)
  | remove (t : T)
  | select (t : T)
  deriving DecidableEq

/-- There are no tasks yet. -/
def initial [Inhabited P] : Agenda T P where
  known := ∅
  priority _ := default
  runnable := ∅
  stamp _ := 0
  now := 0

/-- The tasks that have been selected. -/
def selected (l : List (Label T)) : List T :=
  l.filterMap fun
    | .select t => some t
    | _ => none

@[simp] lemma selected_nil : selected ([] : List (Label T)) = [] := rfl

@[simp] lemma selected_select (t : T) (l : List (Label T)) :
    selected (.select t :: l) = t :: selected l := rfl

/-- Nothing else is a selection. -/
lemma selected_of_ne {x : Label T} (h : ∀ t, x ≠ .select t) (l : List (Label T)) :
    selected (x :: l) = selected l := by
  cases x with
  | select t => exact absurd rfl (h t)
  | _ => rfl

section Steps

variable [DecidableEq T] [LinearOrder P]

/-- The task is runnable and comes before every other one. -/
def First (a : Agenda T P) (t : T) : Prop :=
  t ∈ a.runnable ∧ ∀ u ∈ a.runnable, u ≠ t →
    a.priority t < a.priority u ∨ a.priority t = a.priority u ∧ a.stamp t < a.stamp u

/-- The steps of the scheduler. -/
inductive Step : Agenda T P → Option (Label T) → Agenda T P → Prop
  | spawn (a : Agenda T P) (t : T) (p : P) (h : t ∉ a.known) : Step a (some (.spawn t))
      { a with known := insert t a.known, priority := Function.update a.priority t p }
  | enqueue (a : Agenda T P) (t : T) (h : t ∈ a.known) : Step a (some (.enqueue t))
      { a with
        runnable := insert t a.runnable
        stamp := Function.update a.stamp t a.now
        now := a.now + 1 }
  | remove (a : Agenda T P) (t : T) : Step a (some (.remove t))
      { a with runnable := a.runnable \ {t} }
  | select (a : Agenda T P) (t : T) (h : a.First t) : Step a (some (.select t))
      { a with runnable := a.runnable \ {t} }
  | clear (a : Agenda T P) : Step a none { a with runnable := ∅ }

/-- A run with its labels. -/
inductive Trace (start : Agenda T P) : List (Label T) → Agenda T P → Prop
  | nil : Trace start [] start
  | visible {l : List (Label T)} {a b : Agenda T P} {x : Label T} (h : Trace start l a)
      (hs : Step a (some x) b) : Trace start (x :: l) b
  | silent {l : List (Label T)} {a b : Agenda T P} (h : Trace start l a) (hs : Step a none b) :
      Trace start l b

/-- The task has been enqueued and neither selected nor removed since. -/
def Enqueued (t : T) : List (Label T) → Prop :=
  Since (· = .enqueue t) fun x => x = .select t ∨ x = .remove t

/-- Every task is selected for an enqueue that no other selection has used. -/
def SelectsEnqueued : List (Label T) → Prop
  | [] => True
  | x :: l => (∀ t, x = .select t → Enqueued t l) ∧ SelectsEnqueued l

/-- A runnable task has been enqueued and neither selected nor removed since. -/
lemma Trace.enqueued {start a : Agenda T P} {l : List (Label T)} (h : Trace start l a)
    (hstart : start.runnable = ∅) {t : T} (ht : t ∈ a.runnable) : Enqueued t l := by
  induction h with
  | nil => simp [hstart] at ht
  | visible h hs ih =>
    rw [Enqueued, since_cons]
    cases hs with
    | spawn u p hu => exact .inr ⟨by simp, ih ht⟩
    | enqueue u hu =>
      rcases ht with rfl | ht
      · exact .inl rfl
      · exact .inr ⟨by simp, ih ht⟩
    | remove u | select u hu =>
      have hne : u ≠ t := fun hut => ht.2 hut.symm
      exact .inr ⟨by simpa using hne, ih ht.1⟩
  | silent h hs ih =>
    cases hs with
    | clear => exact absurd ht (Set.notMem_empty t)

/-- No runnable task is selected twice for one enqueue. -/
lemma Trace.selectsEnqueued {start a : Agenda T P} {l : List (Label T)} (h : Trace start l a)
    (hstart : start.runnable = ∅) : SelectsEnqueued l := by
  induction h with
  | nil => trivial
  | visible h hs ih =>
    refine ⟨fun t ht => ?_, ih⟩
    subst ht
    cases hs with
    | select _ hfirst => exact h.enqueued hstart hfirst.1
  | silent h hs ih => exact ih

/-- Every runnable task was stamped in the past. -/
lemma Trace.stamp_lt {start a : Agenda T P} {l : List (Label T)} (h : Trace start l a)
    (hstart : start.runnable = ∅) {t : T} (ht : t ∈ a.runnable) : a.stamp t < a.now := by
  induction h with
  | nil => simp [hstart] at ht
  | visible h hs ih =>
    cases hs with
    | spawn u p hu => exact ih ht
    | enqueue u hu =>
      by_cases htu : t = u
      · simp [htu]
      · simpa [htu] using (ih (ht.resolve_left htu)).trans (Nat.lt_succ_self _)
    | remove u | select u hu => exact ih ht.1
  | silent h hs ih =>
    cases hs with
    | clear => exact absurd ht (Set.notMem_empty t)

/-- Of two runnable tasks the one with the later stamp was enqueued later. -/
lemma Trace.since_of_stamp_lt {start a : Agenda T P} {l : List (Label T)} (h : Trace start l a)
    (hstart : start.runnable = ∅) {t u : T} (ht : t ∈ a.runnable) (hu : u ∈ a.runnable)
    (hlt : a.stamp t < a.stamp u) : Since (· = .enqueue u) (· = .enqueue t) l := by
  induction h with
  | nil => simp [hstart] at ht
  | visible h hs ih =>
    rw [since_cons]
    cases hs with
    | spawn v p hv => exact .inr ⟨by simp, ih ht hu hlt⟩
    | enqueue v hv =>
      by_cases huv : u = v
      · exact .inl (by rw [huv])
      have hmem := hu.resolve_left huv
      by_cases htv : t = v
      · -- The task that has just been enqueued has the latest stamp.
        subst htv
        have hlt' := h.stamp_lt hstart hmem
        simp only [Function.update_self, Function.update_of_ne huv] at hlt
        exact absurd hlt hlt'.not_gt
      · simp only [Function.update_of_ne huv, Function.update_of_ne htv] at hlt
        exact .inr ⟨by simpa using Ne.symm htv, ih (ht.resolve_left htv) hmem hlt⟩
    | remove v | select v hv => exact .inr ⟨by simp, ih ht.1 hu.1 hlt⟩
  | silent h hs ih =>
    cases hs with
    | clear => exact absurd ht (Set.notMem_empty t)

/-! ## While a task waits -/

/-- What has happened since the latest enqueue of the task. -/
def recent (t : T) : List (Label T) → List (Label T)
  | [] => []
  | x :: l => if x = .enqueue t then [] else x :: recent t l

/-- What had happened before the latest enqueue of the task. -/
def earlier (t : T) : List (Label T) → List (Label T)
  | [] => []
  | x :: l => if x = .enqueue t then l else earlier t l

@[simp] lemma recent_cons (t : T) (x : Label T) (l : List (Label T)) :
    recent t (x :: l) = if x = .enqueue t then [] else x :: recent t l := rfl

@[simp] lemma earlier_cons (t : T) (x : Label T) (l : List (Label T)) :
    earlier t (x :: l) = if x = .enqueue t then l else earlier t l := rfl

/-- What has happened recently has happened. -/
lemma mem_selected_of_recent {t u : T} {l : List (Label T)} (h : u ∈ selected (recent t l)) :
    u ∈ selected l := by
  induction l with
  | nil => exact h
  | cons x l ih =>
    rw [recent_cons] at h
    split_ifs at h with hx
    · simp at h
    · cases x with
      | select v =>
        rw [selected_select, List.mem_cons] at h ⊢
        exact h.imp_right ih
      | _ => exact ih h

/-- Runnable tasks and those that have been selected are known. -/
lemma Trace.known {start a : Agenda T P} {l : List (Label T)} (h : Trace start l a)
    (hstart : start.runnable = ∅) :
    a.runnable ⊆ a.known ∧ ∀ u ∈ selected l, u ∈ a.known := by
  induction h with
  | nil => simp [hstart]
  | visible h hs ih =>
    cases hs with
    | spawn v p hv =>
      exact ⟨ih.1.trans (Set.subset_insert _ _), fun u hu => Set.mem_insert_of_mem _ (ih.2 u hu)⟩
    | enqueue v hv => exact ⟨Set.insert_subset hv ih.1, ih.2⟩
    | remove v => exact ⟨fun u hu => ih.1 hu.1, ih.2⟩
    | select v hv =>
      refine ⟨fun u hu => ih.1 hu.1, fun u hu => ?_⟩
      rcases List.mem_cons.mp hu with rfl | hu
      · exact ih.1 hv.1
      · exact ih.2 u hu
  | silent h hs ih =>
    cases hs with
    | clear => exact ⟨Set.empty_subset _, ih.2⟩

/-- Who has been selected since the task `t` was last enqueued.  `ahead` says who is going to be. -/
structure Overtaken (a : Agenda T P) (l : List (Label T)) (t : T) : Prop where
  self : t ∉ selected (recent t l)
  le : ∀ u ∈ selected (recent t l), a.priority u ≤ a.priority t
  nodup : ((selected (recent t l)).filter (a.priority · = a.priority t)).Nodup
  earlier : ∀ u ∈ selected (recent t l), a.priority u = a.priority t → Enqueued u (earlier t l)
  ahead : ∀ u ∈ a.runnable, a.priority u = a.priority t → a.stamp u < a.stamp t →
    u ∉ selected (recent t l) ∧ Enqueued u (Agenda.earlier t l)

/-- What is neither a selection nor an enqueue of the task. -/
lemma Overtaken.other {a b : Agenda T P} {l : List (Label T)} {t : T} (h : a.Overtaken l t) {x : Label T}
    (hx : x ≠ .enqueue t) (hselect : ∀ u, x ≠ .select u) (ht : b.priority t = a.priority t)
    (hpriority : ∀ u ∈ selected (recent t l), b.priority u = a.priority u)
    (hahead : ∀ u ∈ b.runnable, b.stamp u < b.stamp t →
      u ∈ a.runnable ∧ a.stamp u < a.stamp t ∧ b.priority u = a.priority u) : b.Overtaken (x :: l) t := by
  have hrecent : selected (recent t (x :: l)) = selected (recent t l) := by
    rw [recent_cons, if_neg hx, selected_of_ne hselect]
  have hearlier : Agenda.earlier t (x :: l) = Agenda.earlier t l := if_neg hx
  refine ⟨hrecent ▸ h.self, fun u hu => ?_, ?_, fun u hu heq => ?_, fun u hu heq hlt => ?_⟩
  · rw [hrecent] at hu
    rw [hpriority u hu, ht]
    exact h.le u hu
  · rw [hrecent, List.filter_congr fun u hu => by rw [hpriority u hu, ht]]
    exact h.nodup
  · rw [hrecent] at hu
    rw [hpriority u hu, ht] at heq
    exact hearlier ▸ h.earlier u hu heq
  · obtain ⟨hu, hlt, hsame⟩ := hahead u hu hlt
    rw [hsame, ht] at heq
    rw [hrecent, hearlier]
    exact h.ahead u hu heq hlt

/-- The first task is selected, and it is another one. -/
lemma Overtaken.select {a : Agenda T P} {l : List (Label T)} {t v : T} (h : a.Overtaken l t)
    (ht : t ∈ a.runnable) (hv : a.First v) (hvt : t ≠ v) :
    Overtaken { a with runnable := a.runnable \ {v} } (.select v :: l) t := by
  have hrecent : selected (recent t (.select v :: l)) = v :: selected (recent t l) := by
    rw [recent_cons, if_neg (by simp), selected_select]
  have hearlier : Agenda.earlier t (.select v :: l) = Agenda.earlier t l := if_neg (by simp)
  have hfirst := hv.2 t ht hvt
  have hahead : a.priority v = a.priority t →
      v ∉ selected (recent t l) ∧ Enqueued v (Agenda.earlier t l) := fun heq =>
    h.ahead v hv.1 heq (hfirst.resolve_left heq.not_lt).2
  refine ⟨?_, fun u hu => ?_, ?_, fun u hu heq => ?_, fun u hu heq hlt => ?_⟩
  · rw [hrecent, List.mem_cons, not_or]
    exact ⟨hvt, h.self⟩
  · rw [hrecent] at hu
    rcases List.mem_cons.mp hu with rfl | hu
    · exact hfirst.elim le_of_lt fun heq => heq.1.le
    · exact h.le u hu
  · rw [hrecent, List.filter_cons]
    split_ifs with heq
    · refine List.nodup_cons.mpr ⟨fun hmem => ?_, h.nodup⟩
      exact (hahead (of_decide_eq_true heq)).1 (List.mem_filter.mp hmem).1
    · exact h.nodup
  · rw [hrecent] at hu
    rw [hearlier]
    rcases List.mem_cons.mp hu with rfl | hu
    · exact (hahead heq).2
    · exact h.earlier u hu heq
  · obtain ⟨hnot, henq⟩ := h.ahead u hu.1 heq hlt
    rw [hrecent, hearlier, List.mem_cons, not_or]
    exact ⟨⟨hu.2, hnot⟩, henq⟩

/-- While a task is runnable, no task of lower priority is selected, and every other one of its priority is
selected at most once, and only if it had been enqueued before. -/
theorem Trace.overtaken {start a : Agenda T P} {l : List (Label T)} (h : Trace start l a)
    (hstart : start.runnable = ∅) {t : T} (ht : t ∈ a.runnable) : a.Overtaken l t := by
  induction h with
  | nil => simp [hstart] at ht
  | @visible l a b x h hs ih =>
    cases hs with
    | spawn v p hv =>
      obtain ⟨hrunnable, hselected⟩ := h.known hstart
      have hpriority : ∀ u ∈ a.known, Function.update a.priority v p u = a.priority u := fun u hu =>
        Function.update_of_ne (ne_of_mem_of_not_mem hu hv) ..
      exact (ih ht).other (by simp) (by simp) (hpriority t (hrunnable ht))
        (fun u hu => hpriority u (hselected u (mem_selected_of_recent hu)))
        fun u hu hlt => ⟨hu, hlt, hpriority u (hrunnable hu)⟩
    | enqueue v hv =>
      by_cases hvt : v = t
      · subst hvt
        refine ⟨by simp, by simp, by simp, by simp, fun u hu _ hlt => ⟨by simp, ?_⟩⟩
        have huv : u ≠ v := fun huv => by simp [huv] at hlt
        simpa using h.enqueued hstart (hu.resolve_left huv)
      · have htmem := ht.resolve_left (Ne.symm hvt)
        refine (ih htmem).other (by simpa using hvt) (by simp) rfl (fun _ _ => rfl) fun u hu hlt => ?_
        simp only [Function.update_of_ne (Ne.symm hvt)] at hlt
        by_cases huv : u = v
        · -- The task that has just been enqueued is behind.
          subst huv
          rw [Function.update_self] at hlt
          exact absurd (h.stamp_lt hstart htmem) hlt.not_gt
        · rw [Function.update_of_ne huv] at hlt
          exact ⟨hu.resolve_left huv, hlt, rfl⟩
    | remove v =>
      exact (ih ht.1).other (by simp) (by simp) rfl (fun _ _ => rfl) fun u hu hlt => ⟨hu.1, hlt, rfl⟩
    | select v hv => exact (ih ht.1).select ht.1 hv ht.2
  | silent h hs ih =>
    cases hs with
    | clear => exact absurd ht (Set.notMem_empty t)

end Steps

end Agenda

end Epox

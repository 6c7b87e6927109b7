import Epox.Foundation.Ring
import Epox.Queue.Pointer

/-!
# The intrusive queues refine a family of disjoint lists

`Represents m F` says that the heap `m` holds, for every queue `q`, a circle through the head of `q`
whose `prev` pointers run through the entries of `F.list q` from front to back, and that an entry is
queued exactly if the family has a home for it.

Each operation of `queue.rs` succeeds on a heap that represents a family (no null pointer is
followed), returns what the operation of the family returns, and leaves a heap that represents the
resulting family.  `run_refines` lifts this to any sequence of operations on the freshly initialised
queues.
-/

namespace Epox

universe u

variable {Q E : Type u}

/-- The heap `m` holds the queues of the family `F`. -/
structure Represents (m : Heap Q E) (F : Family Q E) : Prop where
  /-- The members of `q` form a circle through its head, front first along `prev`. -/
  ring : ∀ q, Ring (fun x => (m x).prev) (fun x => (m x).next) (.head q) ((F.list q).map .entry)
  /-- Exactly the members of a queue are queued. -/
  queued : ∀ e, Heap.isQueued m (.entry e) = (F.home e).isSome

/-- The addresses of the circle of `q`. -/
def ringNodes (F : Family Q E) (q : Q) : List (Loc Q E) :=
  .head q :: (F.list q).map .entry

/-- The addresses of one circle are all different. -/
lemma ringNodes_nodup (F : Family Q E) (q : Q) : (ringNodes F q).Nodup := by
  refine List.nodup_cons.mpr ⟨by simp, (F.nodup q).map ?_⟩
  intro x y h
  exact Loc.entry.inj h

/-- An entry lies on the circle of `q` exactly if `q` is its home. -/
lemma entry_mem_ringNodes {F : Family Q E} {q : Q} {e : E} :
    .entry e ∈ ringNodes F q ↔ F.home e = some q := by
  simp [ringNodes, F.mem_list]

/-- The circles of different queues have no address in common. -/
lemma ringNodes_disjoint {F : Family Q E} {p q : Q} (h : p ≠ q) {x : Loc Q E}
    (hp : x ∈ ringNodes F p) : x ∉ ringNodes F q := by
  cases x with
  | head r =>
    simp only [ringNodes, List.mem_cons, Loc.head.injEq, List.mem_map, reduceCtorEq, and_false,
      exists_false, or_false] at hp ⊢
    exact hp ▸ h
  | entry e =>
    rw [entry_mem_ringNodes] at hp ⊢
    rw [hp]
    simpa using h

section Operations

variable [DecidableEq Q] [DecidableEq E]

/-! ## One operation -/

/-- Unqueueing an entry takes its element out of the family. -/
lemma unqueue_refines {m : Heap Q E} {F : Family Q E} (hm : Represents m F) (e : E) :
    ∃ m', Heap.unqueue m (.entry e) = some m' ∧ Represents m' (F.release e) := by
  cases hhome : F.home e with
  | none =>
    have hq : Heap.isQueued m (.entry e) = false := by rw [hm.queued, hhome]; rfl
    refine ⟨m, by simp [Heap.unqueue, hq], ?_⟩
    rwa [Family.release_of_home_none hhome]
  | some q =>
    obtain ⟨l₁, l₂, hlist⟩ := List.append_of_mem ((F.mem_list q e).mpr hhome)
    obtain ⟨a, p, hp⟩ := exists_eq_concat (Loc.head q) (l₁.map Loc.entry)
    obtain ⟨n, c, hn⟩ := exists_eq_cons (l₂.map Loc.entry) (Loc.head q)
    have hring := hm.ring q
    rw [hlist, List.map_append, List.map_cons] at hring
    have hnd := ringNodes_nodup F q
    rw [ringNodes, hlist, List.map_append, List.map_cons] at hnd
    obtain ⟨hprev, hnext⟩ := hring.neighbours hp hn
    -- the two neighbours lie on the circle and are not the entry itself
    have hpmem : p ∈ Loc.head q :: l₁.map Loc.entry := by rw [hp]; simp
    have hnmem : n ∈ l₂.map Loc.entry ++ [Loc.head q] := by rw [hn]; simp
    have hpx : p ≠ .entry e := by
      rintro rfl
      have hd : List.Disjoint (Loc.head q :: l₁.map Loc.entry) (Loc.entry e :: l₂.map Loc.entry) :=
        List.disjoint_of_nodup_append hnd
      exact hd hpmem List.mem_cons_self
    have hnx : n ≠ .entry e := by
      rintro rfl
      have hsub : (Loc.entry e :: l₂.map Loc.entry).Nodup :=
        (List.nodup_append.mp (List.nodup_cons.mp hnd).2).2.1
      exact (List.nodup_cons.mp hsub).1 (by simpa using hnmem)
    have hpring : p ∈ ringNodes F q := by
      rw [ringNodes, hlist]
      simp only [List.map_append, List.mem_cons, List.mem_append] at hpmem ⊢
      tauto
    have hnring : n ∈ ringNodes F q := by
      rw [ringNodes, hlist]
      simp only [List.map_append, List.map_cons, List.mem_cons, List.mem_append,
        List.not_mem_nil, or_false] at hnmem ⊢
      tauto
    let m₁ := m.writeNext n (some p)
    let m₂ := m₁.writePrev p (some n)
    let m₃ := m₂.writePrev (.entry e) none
    have hunqueue : Heap.unqueue m (.entry e) = some m₃ := by
      have hq : Heap.isQueued m (.entry e) = true := by rw [hm.queued, hhome]; rfl
      simp [Heap.unqueue, hq, Heap.setNext, Heap.setPrev, hprev, hnext, hnx.symm, m₃, m₂, m₁]
    have hf : ∀ y, y ≠ p → y ≠ .entry e → (m₃ y).prev = (m y).prev := by
      intro y hyp hye
      simp [m₃, m₂, m₁, hyp, hye]
    have hb : ∀ y, y ≠ n → y ≠ .entry e → (m₃ y).next = (m y).next := by
      intro y hyn _
      simp [m₃, m₂, m₁, hyn]
    have hfp : (m₃ p).prev = some n := by simp [m₃, m₂, hpx]
    have hbn : (m₃ n).next = some p := by simp [m₃, m₂, m₁]
    refine ⟨m₃, hunqueue, ⟨fun r => ?_, fun x => ?_⟩⟩
    · by_cases hr : r = q
      · subst hr
        have herase : (F.release e).list r = l₁ ++ l₂ := by
          have hndl : (l₁ ++ e :: l₂).Nodup := hlist ▸ F.nodup r
          have he : e ∉ l₁ := fun h =>
            List.disjoint_of_nodup_append hndl h List.mem_cons_self
          simp [Family.release, hlist, List.erase_append_right _ he]
        rw [herase, List.map_append]
        exact hring.unlink hnd hp hn hfp hbn hf hb
      · have hne : F.home e ≠ some r := by
          rw [hhome]
          simpa using Ne.symm hr
        rw [Family.list_release_of_home_ne hne]
        refine (hm.ring r).congr fun y hy => ?_
        have hynot : y ∉ ringNodes F q := ringNodes_disjoint hr hy
        have hyp : y ≠ p := fun h => hynot (h ▸ hpring)
        have hyn : y ≠ n := fun h => hynot (h ▸ hnring)
        have hye : y ≠ .entry e := fun h => hynot (h ▸ entry_mem_ringNodes.mpr hhome)
        exact ⟨hf y hyp hye, hb y hyn hye⟩
    · by_cases hx : x = e
      · subst hx
        simp [Heap.isQueued, m₃]
      · rw [Family.home_release, if_neg hx, ← hm.queued]
        by_cases hxp : Loc.entry x = p
        · have hhx : F.home x = some q := entry_mem_ringNodes.mp (hxp ▸ hpring)
          rw [hm.queued, hhx, Heap.isQueued, hxp, hfp]
          rfl
        · simp only [Heap.isQueued, hf (.entry x) hxp (by simpa using hx)]

/-- `Queue::push` refines the push of the family. -/
lemma push_refines {m : Heap Q E} {F : Family Q E} (hm : Represents m F) (q : Q) (e : E) :
    ∃ m', Heap.push m q e = some m' ∧ Represents m' (F.push q e) := by
  obtain ⟨m₀, hunqueue, hm₀⟩ := unqueue_refines hm e
  have hhome : (F.release e).home e = none := Family.home_release_self F e
  have he : ∀ r, Loc.entry e ∉ ringNodes (F.release e) r := by
    intro r
    rw [entry_mem_ringNodes, hhome]
    simp
  obtain ⟨a, p, hp⟩ := exists_eq_concat (Loc.head q) (((F.release e).list q).map Loc.entry)
  have hring := hm₀.ring q
  obtain ⟨hnext, -⟩ := hring.backward_head hp
  have hpring : p ∈ ringNodes (F.release e) q := by rw [ringNodes, hp]; simp
  have hpx : p ≠ .entry e := fun h => he q (h ▸ hpring)
  let m₁ := m₀.writeNext (.entry e) (some p)
  let m₂ := m₁.writePrev (.entry e) (some (.head q))
  let m₃ := m₂.writePrev p (some (.entry e))
  let m₄ := m₃.writeNext (.head q) (some (.entry e))
  have hpush : Heap.push m q e = some m₄ := by
    simp [Heap.push, hunqueue, Heap.setNext, Heap.setPrev, hnext, m₄, m₃, m₂, m₁]
  have hf : ∀ y, y ≠ p → y ≠ .entry e → (m₄ y).prev = (m₀ y).prev := by
    intro y hyp hye
    simp [m₄, m₃, m₂, m₁, hyp, hye]
  have hb : ∀ y, y ≠ .head q → y ≠ .entry e → (m₄ y).next = (m₀ y).next := by
    intro y hyh hye
    simp [m₄, m₃, m₂, m₁, hyh, hye]
  have hfp : (m₄ p).prev = some (.entry e) := by simp [m₄, m₃]
  have hbe : (m₄ (.entry e)).next = some p := by simp [m₄, m₃, m₂, m₁]
  have hfe : (m₄ (.entry e)).prev = some (.head q) := by simp [m₄, m₃, m₂, hpx.symm]
  have hbh : (m₄ (.head q)).next = some (.entry e) := by simp [m₄]
  refine ⟨m₄, hpush, ⟨fun r => ?_, fun x => ?_⟩⟩
  · by_cases hr : r = q
    · subst hr
      rw [Family.list_push_self, List.map_append]
      exact hring.link (ringNodes_nodup _ r) (he r) hp hfp hbe hfe hbh hf hb
    · rw [Family.list_push_of_ne e hr]
      refine (hm₀.ring r).congr fun y hy => ?_
      have hynot : y ∉ ringNodes (F.release e) q := ringNodes_disjoint hr hy
      have hyp : y ≠ p := fun h => hynot (h ▸ hpring)
      have hyh : y ≠ .head q := fun h => hynot (h ▸ List.mem_cons_self)
      have hye : y ≠ .entry e := fun h => he r (h ▸ hy)
      exact ⟨hf y hyp hye, hb y hyh hye⟩
  · by_cases hx : x = e
    · subst hx
      rw [Family.home_push_self, Heap.isQueued, hfe]
      rfl
    · have hhx : (F.push q e).home x = (F.release e).home x := by
        rw [Family.home_push, Family.home_release, if_neg hx, if_neg hx]
      rw [hhx, ← hm₀.queued]
      by_cases hxp : Loc.entry x = p
      · have hhq : (F.release e).home x = some q := entry_mem_ringNodes.mp (hxp ▸ hpring)
        rw [hm₀.queued, hhq, Heap.isQueued, hxp, hfp]
        rfl
      · simp only [Heap.isQueued, hf (.entry x) hxp (by simpa using hx)]

/-- `Queue::is_empty` tells whether the list is empty. -/
lemma isEmpty_refines {m : Heap Q E} {F : Family Q E} (hm : Represents m F) (q : Q) :
    Heap.isEmpty m q = (F.list q).isEmpty := by
  have hiff := (hm.ring q).forward_head_eq_iff (by simp)
  rw [List.map_eq_nil_iff] at hiff
  by_cases h : F.list q = []
  · simp [Heap.isEmpty, hiff.mpr h, h]
  · have hne : (m (.head q)).prev ≠ some (.head q) := fun heq => h (hiff.mp heq)
    simp [Heap.isEmpty, hne, h]

/-- `Queue::pop` refines the pop of the family. -/
lemma pop_refines {m : Heap Q E} {F : Family Q E} (hm : Represents m F) (q : Q) :
    ∃ m', Heap.pop m q = some ((F.pop q).map Prod.fst, m') ∧
      Represents m' ((F.pop q).elim F Prod.snd) := by
  have hempty := isEmpty_refines hm q
  cases hlist : F.list q with
  | nil =>
    have hpop : F.pop q = none := Family.pop_eq_none_iff.mpr hlist
    refine ⟨m, ?_, by simpa [hpop] using hm⟩
    simp [Heap.pop, hempty, hlist, hpop]
  | cons e l =>
    have hpop : F.pop q = some (e, F.release e) :=
      Family.pop_eq_some_iff.mpr ⟨by simp [hlist], rfl⟩
    obtain ⟨m', hunqueue, hm'⟩ := unqueue_refines hm e
    have hprev : (m (.head q)).prev = some (.entry e) := by
      have hring := hm.ring q
      rw [hlist, List.map_cons] at hring
      exact hring.forward_head
    refine ⟨m', ?_, by simpa [hpop] using hm'⟩
    simp [Heap.pop, hempty, hlist, hpop, hprev, hunqueue, Heap.fromEntry]

end Operations

/-! ## Sequences of operations -/

/-- An operation of `queue.rs`, with the queue it is called on. -/
inductive QueueOp (Q E : Type u)
  | push (q : Q) (e : E)
  | pop (q : Q)
  | release (q : Q) (e : E)
  | isEmpty (q : Q)

/-- What an operation returns. -/
inductive QueueRet (E : Type u)
  | unit
  | entry (e : Option E)
  | bool (b : Bool)
  deriving DecidableEq

section Sequences

variable [DecidableEq Q] [DecidableEq E]

/-- One operation on the heap. -/
def Heap.exec (m : Heap Q E) : QueueOp Q E → Option (QueueRet E × Heap Q E)
  | .push q e => (m.push q e).map fun m' => (.unit, m')
  | .pop q => (m.pop q).map fun r => (.entry r.1, r.2)
  | .release _ e => (m.release e).map fun m' => (.unit, m')
  | .isEmpty q => some (.bool (m.isEmpty q), m)

/-- The same operation on the family of lists. -/
def Family.exec (F : Family Q E) : QueueOp Q E → QueueRet E × Family Q E
  | .push q e => (.unit, F.push q e)
  | .pop q => (.entry ((F.pop q).map Prod.fst), (F.pop q).elim F Prod.snd)
  | .release _ e => (.unit, F.release e)
  | .isEmpty q => (.bool (F.list q).isEmpty, F)

/-- A sequence of operations on the heap, with all that is returned. -/
def Heap.run (m : Heap Q E) : List (QueueOp Q E) → Option (List (QueueRet E) × Heap Q E)
  | [] => some ([], m)
  | op :: ops => (m.exec op).bind fun r => (Heap.run r.2 ops).map fun t => (r.1 :: t.1, t.2)

/-- The same sequence on the family of lists. -/
def Family.run (F : Family Q E) : List (QueueOp Q E) → List (QueueRet E) × Family Q E
  | [] => ([], F)
  | op :: ops => ((F.exec op).1 :: (Family.run (F.exec op).2 ops).1, (Family.run (F.exec op).2 ops).2)

/-- The freshly initialised queues represent the empty family. -/
lemma initialised_represents : Represents (Heap.initialised : Heap Q E) Family.empty := by
  refine ⟨fun q => ?_, fun e => rfl⟩
  rw [Family.list_empty, List.map_nil, ring_nil_iff]
  simp [Heap.initialised, Heap.init]

/-- Every operation refines the operation of the family. -/
lemma exec_refines {m : Heap Q E} {F : Family Q E} (hm : Represents m F) (op : QueueOp Q E) :
    ∃ m', Heap.exec m op = some ((F.exec op).1, m') ∧ Represents m' (F.exec op).2 := by
  cases op with
  | push q e =>
    obtain ⟨m', hop, hm'⟩ := push_refines hm q e
    exact ⟨m', by simp [Heap.exec, Family.exec, hop], hm'⟩
  | pop q =>
    obtain ⟨m', hop, hm'⟩ := pop_refines hm q
    exact ⟨m', by simp [Heap.exec, Family.exec, hop], hm'⟩
  | release q e =>
    obtain ⟨m', hop, hm'⟩ := unqueue_refines hm e
    exact ⟨m', by simp [Heap.exec, Family.exec, Heap.release, hop], hm'⟩
  | isEmpty q =>
    exact ⟨m, by simp [Heap.exec, Family.exec, isEmpty_refines hm q], hm⟩

/-- Every sequence of operations refines the sequence on the family. -/
lemma run_refines {m : Heap Q E} {F : Family Q E} (hm : Represents m F) (ops : List (QueueOp Q E)) :
    ∃ m', Heap.run m ops = some ((F.run ops).1, m') ∧ Represents m' (F.run ops).2 := by
  induction ops generalizing m F with
  | nil => exact ⟨m, rfl, hm⟩
  | cons op ops ih =>
    obtain ⟨m₁, hop, hm₁⟩ := exec_refines hm op
    obtain ⟨m₂, hops, hm₂⟩ := ih hm₁
    exact ⟨m₂, by simp [Heap.run, Family.run, hop, hops], hm₂⟩

/-- On initialised queues every sequence of pushes, pops, releases and emptiness tests runs without
following a null pointer, returns what the operations on pairwise disjoint duplicate-free lists
return, and leaves circles whose `prev` pointers run through these lists from front to back, with
`prev` and `next` inverse to each other; an entry is queued exactly if some list has it. -/
theorem queues_refine_lists (ops : List (QueueOp Q E)) :
    ∃ m, Heap.run (Heap.initialised : Heap Q E) ops = some ((Family.empty.run ops).1, m) ∧
      (∀ p q, p ≠ q → List.Disjoint ((Family.empty.run ops).2.list p)
        ((Family.empty.run ops).2.list q)) ∧
      (∀ q, ((Family.empty.run ops).2.list q).Nodup) ∧
      (∀ q, Ring (fun x => (m x).prev) (fun x => (m x).next) (.head q)
        (((Family.empty.run ops).2.list q).map .entry)) ∧
      (∀ q, ∀ x ∈ ringNodes (Family.empty.run ops).2 q,
        (∃ y ∈ ringNodes (Family.empty.run ops).2 q, (m x).prev = some y ∧ (m y).next = some x) ∧
        ∃ y ∈ ringNodes (Family.empty.run ops).2 q, (m x).next = some y ∧ (m y).prev = some x) ∧
      ∀ e, Heap.isQueued m (.entry e) = true ↔ ∃ q, e ∈ (Family.empty.run ops).2.list q := by
  obtain ⟨m, hrun, hm⟩ := run_refines initialised_represents ops
  refine ⟨m, hrun, fun _ _ => Family.disjoint _, Family.nodup _, hm.ring,
    fun q x hx => (hm.ring q).inverse hx, fun e => ?_⟩
  rw [hm.queued]
  simp only [Family.mem_list, Option.isSome_iff_exists]

end Sequences

end Epox

import Epox.Queue.Refinement
import Mathlib.Data.List.Perm.Subperm

/-!
# Who owns a task

The tasks of the executor live in `Arc`s, and a queue owns one reference to each of its entries.  No type
keeps track of that reference: `push` turns its argument into a raw pointer (`Arc::into_raw`), `pop` and
`release` rebuild it from the pointer (`Arc::from_raw`), and `push` has to tell by `was_queued` whether the
queue already owned one.

`Store` is the memory: the heap of the queue entries together with the strong counts.  An operation on it
fails where the source would access a queue or a task that is gone.  `Owned` is what the types of Rust
keep track of: who holds the references outside the queues.  Its operations fail where the caller does not
hold the reference that it passes, so that no program contains such a call.  Every run of the latter is a
run of the former, with the strong counts that the references add up to.
-/

namespace Epox

universe u

variable {Q E H : Type u}

/-! ## The memory -/

/-- The memory of the queues and the tasks. -/
structure Store (Q E : Type u) where
  heap : Heap Q E
  /-- The tasks that have been allocated. -/
  spawned : List E
  /-- The strong count of the `Arc` of a task. -/
  strong : E → ℕ
  /-- The queues that have been dropped. -/
  dropped : List Q

namespace Store

variable [DecidableEq Q] [DecidableEq E]

/-- The memory before any task is spawned. -/
def start : Store Q E where
  heap := Heap.initialised
  spawned := []
  strong _ := 0
  dropped := []

/-- There is a queue or a task at the address. -/
def live (σ : Store Q E) : Loc Q E → Bool
  | .head q => q ∉ σ.dropped
  | .entry e => σ.strong e ≠ 0

/-- The task has been destroyed. -/
def Destroyed (σ : Store Q E) (e : E) : Prop := e ∈ σ.spawned ∧ σ.strong e = 0

/-- The pointer may be followed. -/
def reads (σ : Store Q E) (p : Option (Loc Q E)) : Bool := p.any σ.live

/-- `QueueEntry::unqueue` follows the pointers of the entry to both of its neighbours. -/
def canUnqueue (σ : Store Q E) (x : Loc Q E) : Bool :=
  σ.live x && (!Heap.isQueued σ.heap x || σ.reads (σ.heap x).prev && σ.reads (σ.heap x).next)

/-! ### References -/

/-- `Arc::clone`. -/
def clone (σ : Store Q E) (e : E) : Option (Store Q E) :=
  if σ.live (.entry e) then
    some { σ with strong := Function.update σ.strong e (σ.strong e + 1) }
  else
    none

/-- The drop of an `Arc`. -/
def drop (σ : Store Q E) (e : E) : Option (Store Q E) :=
  if σ.live (.entry e) then
    some { σ with strong := Function.update σ.strong e (σ.strong e - 1) }
  else
    none

/-- `Weak::upgrade`. -/
def upgrade (σ : Store Q E) (e : E) : Option (Bool × Store Q E) :=
  if σ.strong e = 0 then some (false, σ) else (σ.clone e).map fun σ' => (true, σ')

/-! ### Queues -/

/-- `Queue::push`: the queue takes over the reference, unless it owns one already. -/
def push (σ : Store Q E) (q : Q) (e : E) : Option (Store Q E) :=
  if σ.live (.head q) && σ.canUnqueue (.entry e) &&
      (Heap.unqueue σ.heap (.entry e)).any fun m => σ.reads (m (.head q)).next then
    (Heap.push σ.heap q e).bind fun m =>
      if Heap.isQueued σ.heap (.entry e) then
        drop { σ with heap := m } e
      else
        some { σ with heap := m }
  else
    none

/-- `Queue::pop`: the reference of the queue goes to the caller. -/
def pop (σ : Store Q E) (q : Q) : Option (Option E × Store Q E) :=
  if σ.live (.head q) &&
      (Heap.isEmpty σ.heap q || (σ.heap (.head q)).prev.any σ.canUnqueue) then
    (Heap.pop σ.heap q).map fun r => (r.1, { σ with heap := r.2 })
  else
    none

/-- `Queue::release`: the reference of the queue is rebuilt and dropped, then the argument. -/
def release (σ : Store Q E) (e : E) : Option (Store Q E) :=
  if σ.live (.entry e) then
    (if Heap.isQueued σ.heap (.entry e) then σ.drop e else some σ).bind fun σ₁ =>
      if σ₁.canUnqueue (.entry e) then
        (Heap.release σ₁.heap e).bind fun m => drop { σ₁ with heap := m } e
      else
        none
  else
    none

/-- `Executor::spawn`: one reference for the queue, one for the `Handle`. -/
def spawn (σ : Store Q E) (q : Q) (e : E) : Option (Store Q E) :=
  if e ∈ σ.spawned then
    none
  else
    (clone { σ with
      heap := Function.update σ.heap (.entry e) QueueEntry.new
      spawned := e :: σ.spawned
      strong := Function.update σ.strong e 1 } e).bind fun σ' => σ'.push q e

/-- The loop of `Queue::drop`, for at most `n` turns. -/
def drain (σ : Store Q E) (q : Q) : ℕ → Option (Store Q E)
  | 0 => none
  | n + 1 => (σ.pop q).bind fun r =>
    match r.1 with
    | none => some r.2
    | some e => (r.2.drop e).bind fun σ' => drain σ' q n

/-- `Queue::drop`.  A queue has fewer entries than tasks have been allocated, so that the bound on the turns
of its loop is never reached. -/
def dropQueue (σ : Store Q E) (q : Q) : Option (Store Q E) :=
  (σ.drain q (σ.spawned.length + 1)).map fun σ' => { σ' with dropped := q :: σ'.dropped }

end Store

/-! ## The owners -/

/-- Who owns the references to the tasks. -/
structure Owned (Q E H : Type u) where
  queues : Family Q E
  /-- Those who hold a reference outside the queues, each as often as it holds one. -/
  held : E → List H
  spawned : List E
  dropped : List Q

/-- An operation on references and queues, with the holder on whose behalf it is called. -/
inductive RefOp (Q E H : Type u)
  | spawn (h : H) (q : Q) (e : E)
  | push (h : H) (q : Q) (e : E)
  | pop (h : H) (q : Q)
  | release (h : H) (e : E)
  | clone (h : H) (e : E)
  | drop (h : H) (e : E)
  | upgrade (h : H) (e : E)
  | dropQueue (q : Q)

/-- One operation on the memory. -/
def Store.exec [DecidableEq Q] [DecidableEq E] (σ : Store Q E) :
    RefOp Q E H → Option (QueueRet E × Store Q E)
  | .spawn _ q e => (σ.spawn q e).map fun σ' => (.unit, σ')
  | .push _ q e => (σ.push q e).map fun σ' => (.unit, σ')
  | .pop _ q => (σ.pop q).map fun r => (.entry r.1, r.2)
  | .release _ e => (σ.release e).map fun σ' => (.unit, σ')
  | .clone _ e => (σ.clone e).map fun σ' => (.unit, σ')
  | .drop _ e => (σ.drop e).map fun σ' => (.unit, σ')
  | .upgrade _ e => (σ.upgrade e).map fun r => (.bool r.1, r.2)
  | .dropQueue q => (σ.dropQueue q).map fun σ' => (.unit, σ')

namespace Owned

variable [DecidableEq Q] [DecidableEq E] [DecidableEq H]

/-- Before any task is spawned. -/
def start : Owned Q E H where
  queues := Family.empty
  held _ := []
  spawned := []
  dropped := []

/-- The references to a task. -/
def count (ω : Owned Q E H) (e : E) : ℕ :=
  (ω.held e).length + (ω.queues.home e).isSome.toNat

/-- The holder gets a reference. -/
def gain (ω : Owned Q E H) (h : H) (e : E) : Owned Q E H :=
  { ω with held := Function.update ω.held e (h :: ω.held e) }

/-- The holder gives up a reference. -/
def lose (ω : Owned Q E H) (h : H) (e : E) : Owned Q E H :=
  { ω with held := Function.update ω.held e ((ω.held e).erase h) }

/-- What an operation does to the owners; `none` if it passes a reference that its caller does not hold, or
calls a queue that has been dropped. -/
def exec (ω : Owned Q E H) : RefOp Q E H → Option (QueueRet E × Owned Q E H)
  | .spawn h q e =>
    if e ∉ ω.spawned ∧ q ∉ ω.dropped then
      some (.unit, { ω with
        queues := ω.queues.push q e
        held := Function.update ω.held e [h]
        spawned := e :: ω.spawned })
    else
      none
  | .push h q e =>
    if h ∈ ω.held e ∧ q ∉ ω.dropped then
      some (.unit, { ω.lose h e with queues := ω.queues.push q e })
    else
      none
  | .pop h q =>
    if q ∉ ω.dropped then
      match ω.queues.pop q with
      | none => some (.entry none, ω)
      | some (e, F) => some (.entry (some e), { ω.gain h e with queues := F })
    else
      none
  | .release h e =>
    if h ∈ ω.held e then
      some (.unit, { ω.lose h e with queues := ω.queues.release e })
    else
      none
  | .clone h e => if h ∈ ω.held e then some (.unit, ω.gain h e) else none
  | .drop h e => if h ∈ ω.held e then some (.unit, ω.lose h e) else none
  | .upgrade h e =>
    if e ∈ ω.spawned then
      if ω.count e = 0 then some (.bool false, ω) else some (.bool true, ω.gain h e)
    else
      none
  | .dropQueue q =>
    if q ∉ ω.dropped then
      some (.unit, { ω with
        queues := (ω.queues.list q).foldl Family.release ω.queues
        dropped := q :: ω.dropped })
    else
      none

end Owned

/-! ## The strong counts -/

/-- The memory holds the queues, and the strong counts are the numbers of references. -/
structure Counts (σ : Store Q E) (ω : Owned Q E H) : Prop where
  represents : Represents σ.heap ω.queues
  spawned : σ.spawned = ω.spawned
  dropped : σ.dropped = ω.dropped
  strong : ∀ e, σ.strong e = ω.count e
  of_count : ∀ e, ω.count e ≠ 0 → e ∈ ω.spawned
  empty : ∀ q ∈ ω.dropped, ω.queues.list q = []

section Counting

variable {σ : Store Q E} {ω : Owned Q E H} {F : Family Q E}

/-- The pointers of an address on a circle lead to addresses on the circle. -/
lemma Represents.exists_neighbours {m : Heap Q E} (hm : Represents m F) {q : Q} {x : Loc Q E}
    (hx : x ∈ ringNodes F q) :
    (∃ y ∈ ringNodes F q, (m x).prev = some y) ∧ ∃ y ∈ ringNodes F q, (m x).next = some y := by
  obtain ⟨⟨y, hy, hprev, -⟩, z, hz, hnext, -⟩ := (hm.ring q).inverse hx
  exact ⟨⟨y, hy, hprev⟩, z, hz, hnext⟩

/-- A queued task has a reference. -/
lemma count_ne_zero_of_home {e : E} {q : Q} (h : ω.queues.home e = some q) : ω.count e ≠ 0 := by
  simp [Owned.count, h]

/-- A task with an owner outside the queues has a reference. -/
lemma count_ne_zero_of_held {h : H} {e : E} (hh : h ∈ ω.held e) : ω.count e ≠ 0 := by
  have hpos : 0 < (ω.held e).length := List.length_pos_of_mem hh
  rw [Owned.count]
  omega

/-- Only the references to `e` have changed. -/
lemma Counts.update [DecidableEq E] (hc : Counts σ ω) {σ' : Store Q E} {ω' : Owned Q E H} (e : E)
    (hm : Represents σ'.heap ω'.queues) (hspawned : σ'.spawned = ω'.spawned)
    (hdropped : σ'.dropped = ω'.dropped) (he : e ∈ ω'.spawned) (hsub : ω.spawned ⊆ ω'.spawned)
    (hstrong : σ'.strong e = ω'.count e)
    (hother : ∀ x, x ≠ e → σ'.strong x = σ.strong x ∧ ω'.count x = ω.count x)
    (hempty : ∀ p ∈ ω'.dropped, ω'.queues.list p = []) : Counts σ' ω' := by
  refine ⟨hm, hspawned, hdropped, fun x => ?_, fun x hx => ?_, hempty⟩
  · by_cases hxe : x = e
    · rw [hxe, hstrong]
    · obtain ⟨hs, hn⟩ := hother x hxe
      rw [hs, hn, hc.strong x]
  · by_cases hxe : x = e
    · exact hxe ▸ he
    · exact hsub (hc.of_count x ((hother x hxe).2 ▸ hx))

/-- A queue has no more entries than tasks have been allocated. -/
lemma Counts.length_le (hc : Counts σ ω) (q : Q) :
    (ω.queues.list q).length ≤ σ.spawned.length := by
  refine (List.Nodup.subperm (ω.queues.nodup q) fun e he => ?_).length_le
  rw [hc.spawned]
  exact hc.of_count e (count_ne_zero_of_home ((ω.queues.mem_list q e).mp he))

/-- The owners after a holder has got a reference. -/
lemma Counts.gain [DecidableEq E] (hc : Counts σ ω) {h : H} {e : E} (he : e ∈ ω.spawned) :
    Counts { σ with strong := Function.update σ.strong e (σ.strong e + 1) } (ω.gain h e) := by
  refine hc.update e hc.represents hc.spawned hc.dropped he (fun _ => id) ?_ (fun x hx => ?_) hc.empty
  · have hcount := hc.strong e
    simp only [Owned.count, Owned.gain, Function.update_self, List.length_cons] at hcount ⊢
    omega
  · simp [Owned.count, Owned.gain, hx]

/-- The owners after a holder has given up a reference. -/
lemma Counts.lose [DecidableEq E] [DecidableEq H] (hc : Counts σ ω) {h : H} {e : E} (hh : h ∈ ω.held e) :
    Counts { σ with strong := Function.update σ.strong e (σ.strong e - 1) } (ω.lose h e) := by
  refine hc.update e hc.represents hc.spawned hc.dropped (hc.of_count e (count_ne_zero_of_held hh))
    (fun _ => id) ?_ (fun x hx => ?_) hc.empty
  · have hcount := hc.strong e
    have hlen := List.length_erase_add_one hh
    simp only [Owned.count, Owned.lose, Function.update_self] at hcount ⊢
    omega
  · simp [Owned.count, Owned.lose, hx]

variable [DecidableEq Q]

/-- A queued task or one with an owner outside has not been destroyed. -/
lemma Counts.live_entry (hc : Counts σ ω) {e : E} (he : ω.count e ≠ 0) :
    σ.live (.entry e) = true := by
  simpa [Store.live, hc.strong] using he

/-- Everything on a circle that has entries may be accessed. -/
def Store.Safe (σ : Store Q E) (F : Family Q E) : Prop :=
  ∀ q, F.list q ≠ [] → ∀ x ∈ ringNodes F q, σ.live x = true

/-- An entry that may be accessed may be unqueued. -/
lemma Store.Safe.canUnqueue (hsafe : σ.Safe F) (hm : Represents σ.heap F) {e : E}
    (he : σ.live (.entry e) = true) : σ.canUnqueue (.entry e) = true := by
  rw [Store.canUnqueue, he, hm.queued]
  cases hhome : F.home e with
  | none => rfl
  | some q =>
    have hmem : e ∈ F.list q := (F.mem_list q e).mpr hhome
    have hne : F.list q ≠ [] := List.ne_nil_of_mem hmem
    obtain ⟨⟨y, hy, hprev⟩, z, hz, hnext⟩ := hm.exists_neighbours (entry_mem_ringNodes.mpr hhome)
    simp [Store.reads, hprev, hnext, hsafe q hne y hy, hsafe q hne z hz]

/-- Everything on a circle that has entries is in use. -/
lemma Counts.safe (hc : Counts σ ω) : σ.Safe ω.queues := by
  intro q hne x hx
  cases x with
  | head p =>
    have hp : p = q := by simpa [ringNodes] using hx
    have hq : q ∉ ω.dropped := fun h => hne (hc.empty q h)
    simpa [Store.live, hp, hc.dropped] using hq
  | entry e => exact hc.live_entry (count_ne_zero_of_home (entry_mem_ringNodes.mp hx))

variable [DecidableEq E]

/-- The circles without an entry are still safe. -/
lemma Store.Safe.release (hsafe : σ.Safe F) (e : E) : σ.Safe (F.release e) := by
  have hsub : ∀ q, (F.release e).list q ⊆ F.list q := fun q => List.erase_subset
  intro q hne x hx
  refine hsafe q (fun hnil => hne (List.subset_nil.mp (hnil ▸ hsub q))) x ?_
  rw [ringNodes, List.mem_cons] at hx ⊢
  exact hx.imp_right fun hx => List.map_subset _ (hsub q) hx

/-! ## One operation -/

/-- Unqueueing an entry that may be accessed. -/
lemma Store.Safe.unqueue (hsafe : σ.Safe F) (hm : Represents σ.heap F) (e : E) (q : Q)
    (hq : σ.live (.head q) = true) :
    ((Heap.unqueue σ.heap (.entry e)).any fun m => σ.reads (m (.head q)).next) = true := by
  obtain ⟨m, hunqueue, hm'⟩ := unqueue_refines hm e
  obtain ⟨-, y, hy, hnext⟩ := hm'.exists_neighbours (List.mem_cons_self (a := Loc.head q))
  have hlive : σ.live y = true := by
    by_cases hnil : (F.release e).list q = []
    · have hyq : y = .head q := by simpa [ringNodes, hnil] using hy
      rwa [hyq]
    · exact hsafe.release e q hnil y hy
  simp [hunqueue, Store.reads, hnext, hlive]

/-- `Queue::push` of a reference that its caller holds. -/
lemma Counts.push (hc : Counts σ ω) {e : E} {q : Q} (he : ω.count e ≠ 0) (hq : q ∉ ω.dropped) :
    ∃ σ', σ.push q e = some σ' ∧ Represents σ'.heap (ω.queues.push q e) ∧
      σ'.spawned = σ.spawned ∧ σ'.dropped = σ.dropped ∧
      σ'.strong = Function.update σ.strong e
        (σ.strong e - (ω.queues.home e).isSome.toNat) := by
  have hlive := hc.live_entry he
  have hhead : σ.live (.head q) = true := by simpa [Store.live, hc.dropped] using hq
  obtain ⟨m, hpush, hm⟩ := push_refines hc.represents q e
  have hqueued := hc.represents.queued e
  have hguard : (σ.live (.head q) && σ.canUnqueue (.entry e) &&
      (Heap.unqueue σ.heap (.entry e)).any fun m => σ.reads (m (.head q)).next) = true := by
    rw [hhead, hc.safe.canUnqueue hc.represents hlive, hc.safe.unqueue hc.represents e q hhead]
    rfl
  have hdrop : Store.live { σ with heap := m } (.entry e) = true := hlive
  rw [Store.push, if_pos hguard, hpush, Option.bind_some, hqueued]
  cases hhome : (ω.queues.home e).isSome with
  | true =>
    rw [if_pos rfl, Store.drop, if_pos hdrop]
    exact ⟨_, rfl, hm, rfl, rfl, rfl⟩
  | false =>
    rw [if_neg (by simp)]
    exact ⟨_, rfl, hm, rfl, rfl, by simp⟩

/-- `Queue::pop`. -/
lemma Counts.pop (hc : Counts σ ω) {q : Q} (hq : q ∉ ω.dropped) :
    ∃ σ', σ.pop q = some ((ω.queues.pop q).map Prod.fst, σ') ∧
      Represents σ'.heap ((ω.queues.pop q).elim ω.queues Prod.snd) ∧
      σ'.spawned = σ.spawned ∧ σ'.dropped = σ.dropped ∧ σ'.strong = σ.strong := by
  have hhead : σ.live (.head q) = true := by simpa [Store.live, hc.dropped] using hq
  obtain ⟨m, hpop, hm⟩ := pop_refines hc.represents q
  have hguard : (σ.live (.head q) &&
      (Heap.isEmpty σ.heap q || (σ.heap (.head q)).prev.any σ.canUnqueue)) = true := by
    rw [hhead, isEmpty_refines hc.represents q]
    cases hlist : ω.queues.list q with
    | nil => rfl
    | cons e l =>
      have hring := hc.represents.ring q
      rw [hlist, List.map_cons] at hring
      have hhome : ω.queues.home e = some q := (ω.queues.mem_list q e).mp (by simp [hlist])
      have hcan := hc.safe.canUnqueue hc.represents (hc.live_entry (count_ne_zero_of_home hhome))
      rw [hring.forward_head]
      simpa using hcan
  rw [Store.pop, if_pos hguard, hpop]
  exact ⟨_, rfl, hm, rfl, rfl, rfl⟩

/-- `Queue::release` of a reference that its caller holds. -/
lemma Counts.release (hc : Counts σ ω) {h : H} {e : E} (hh : h ∈ ω.held e) :
    ∃ σ', σ.release e = some σ' ∧ Represents σ'.heap (ω.queues.release e) ∧
      σ'.spawned = σ.spawned ∧ σ'.dropped = σ.dropped ∧
      σ'.strong = Function.update σ.strong e
        (σ.strong e - (ω.queues.home e).isSome.toNat - 1) := by
  have hcount := hc.strong e
  have hpos : 0 < (ω.held e).length := List.length_pos_of_mem hh
  have hlive := hc.live_entry (count_ne_zero_of_held hh)
  have hqueued := hc.represents.queued e
  obtain ⟨m, hunqueue, hm⟩ := unqueue_refines hc.represents e
  rw [Store.release, if_pos hlive, hqueued]
  cases hhome : (ω.queues.home e).isSome with
  | false =>
    have hcan := hc.safe.canUnqueue hc.represents hlive
    have hdrop : Store.live { σ with heap := m } (.entry e) = true := hlive
    rw [if_neg (by simp), Option.bind_some, if_pos hcan, Heap.release, hunqueue, Option.bind_some,
      Store.drop, if_pos hdrop]
    exact ⟨_, rfl, hm, rfl, rfl, rfl⟩
  | true =>
    let σ₁ : Store Q E := { σ with strong := Function.update σ.strong e (σ.strong e - 1) }
    have hlive₁ : σ₁.live (.entry e) = true := by
      simp only [Owned.count, hhome, Bool.toNat_true] at hcount
      simp only [Store.live, σ₁, Function.update_self, decide_not, Bool.not_eq_eq_eq_not, Bool.not_true,
        decide_eq_false_iff_not]
      omega
    have hsafe₁ : σ₁.Safe ω.queues := by
      intro q hne x hx
      cases x with
      | head p => exact hc.safe q hne (.head p) hx
      | entry u =>
        by_cases hu : u = e
        · exact hu ▸ hlive₁
        · simpa [Store.live, σ₁, hu] using hc.safe q hne (.entry u) hx
    have hcan := hsafe₁.canUnqueue hc.represents hlive₁
    have hdrop : Store.live { σ₁ with heap := m } (.entry e) = true := hlive₁
    rw [if_pos rfl, Store.drop, if_pos hlive, Option.bind_some, if_pos hcan, Heap.release, hunqueue,
      Option.bind_some, Store.drop, if_pos hdrop]
    exact ⟨_, rfl, hm, rfl, rfl, by simp⟩

/-- A queue without entries has none after a push to another one. -/
lemma Family.list_push_eq_nil {p q : Q} (h : F.list p = []) (hpq : p ≠ q) (e : E) :
    (F.push q e).list p = [] := by
  rw [Family.list_push_of_ne e hpq]
  exact List.subset_nil.mp (h ▸ List.erase_subset)

/-- The owners after a pop. -/
lemma Counts.exec_pop (hc : Counts σ ω) (h : H) {q : Q} (hq : q ∉ ω.dropped) :
    ∃ σ', σ.pop q = some ((ω.queues.pop q).map Prod.fst, σ') ∧
      Counts σ' ((ω.queues.pop q).elim ω fun r => { ω.gain h r.1 with queues := r.2 }) := by
  obtain ⟨σ', hpop, hm, hspawned, hdropped, hstrong⟩ := hc.pop hq
  refine ⟨σ', hpop, ?_⟩
  cases hF : ω.queues.pop q with
  | none =>
    rw [hF] at hm
    refine ⟨hm, hspawned.trans hc.spawned, hdropped.trans hc.dropped, fun x => ?_, hc.of_count, hc.empty⟩
    exact hstrong ▸ hc.strong x
  | some r =>
    obtain ⟨e, F⟩ := r
    rw [hF] at hm
    obtain ⟨hhead, rfl⟩ := Family.pop_eq_some_iff.mp hF
    have hhome := Family.home_of_head? hhead
    refine hc.update e hm (hspawned.trans hc.spawned) (hdropped.trans hc.dropped)
      (hc.of_count e (count_ne_zero_of_home hhome)) (fun _ => id) ?_ (fun x hx => ⟨?_, ?_⟩) fun p hp => ?_
    · have hcount := hc.strong e
      rw [hstrong]
      simp only [Owned.count, hhome, Option.isSome_some, Bool.toNat_true] at hcount
      simp [Owned.count, Owned.gain, hcount]
    · rw [hstrong]
    · simp [Owned.count, Owned.gain, Family.home_release, hx]
    · exact List.subset_nil.mp (hc.empty p hp ▸ List.erase_subset)

/-- A turn of the loop of `Queue::drop`. -/
lemma Counts.drop_popped (hc : Counts σ ω) {q : Q} {e : E} {l : List E} (hq : q ∉ ω.dropped)
    (hlist : ω.queues.list q = e :: l) :
    ∃ σ₁ σ₂, σ.pop q = some (some e, σ₁) ∧ σ₁.drop e = some σ₂ ∧
      Counts σ₂ { ω with queues := ω.queues.release e } := by
  have hhead : (ω.queues.list q).head? = some e := by simp [hlist]
  have hhome := Family.home_of_head? hhead
  have hF : ω.queues.pop q = some (e, ω.queues.release e) :=
    Family.pop_eq_some_iff.mpr ⟨hhead, rfl⟩
  obtain ⟨σ₁, hpop, hm, hspawned, hdropped, hstrong⟩ := hc.pop hq
  rw [hF] at hpop hm
  have hcount := hc.strong e
  simp only [Owned.count, hhome, Option.isSome_some, Bool.toNat_true] at hcount
  have hlive : σ₁.live (.entry e) = true := by simp [Store.live, hstrong, hcount]
  refine ⟨σ₁, _, hpop, if_pos hlive, hc.update e hm (hspawned.trans hc.spawned)
    (hdropped.trans hc.dropped) (hc.of_count e (count_ne_zero_of_home hhome)) (fun _ => id) ?_
    (fun x hx => ⟨?_, ?_⟩) fun p hp => ?_⟩
  · simp [Owned.count, hstrong, hcount]
  · simp [hx, hstrong]
  · simp [Owned.count, Family.home_release, hx]
  · exact List.subset_nil.mp (hc.empty p hp ▸ List.erase_subset)

/-- The loop of `Queue::drop` ends with the queue empty. -/
lemma Counts.drain {q : Q} {n : ℕ} (hc : Counts σ ω) (hq : q ∉ ω.dropped)
    (hn : (ω.queues.list q).length < n) :
    ∃ σ', σ.drain q n = some σ' ∧
      Counts σ' { ω with queues := (ω.queues.list q).foldl Family.release ω.queues } ∧
        ((ω.queues.list q).foldl Family.release ω.queues).list q = [] := by
  induction n generalizing σ ω with
  | zero => simp at hn
  | succ n ih =>
    cases hlist : ω.queues.list q with
    | nil =>
      have hF : ω.queues.pop q = none := Family.pop_eq_none_iff.mpr hlist
      obtain ⟨σ', hpop, hm, hspawned, hdropped, hstrong⟩ := hc.pop hq
      rw [hF] at hpop hm
      refine ⟨σ', by simp [Store.drain, hpop], ⟨hm, hspawned.trans hc.spawned,
        hdropped.trans hc.dropped, fun x => ?_, hc.of_count, hc.empty⟩, hlist⟩
      exact hstrong ▸ hc.strong x
    | cons e l =>
      obtain ⟨σ₁, σ₂, hpop, hdrop, hc₂⟩ := hc.drop_popped hq hlist
      have hrest : (ω.queues.release e).list q = l := by simp [Family.release, hlist]
      obtain ⟨σ', hdrain, hc', hnil⟩ := ih hc₂ hq (by
        rw [hlist, List.length_cons] at hn
        exact hrest ▸ Nat.lt_of_succ_lt_succ hn)
      rw [hrest] at hc' hnil
      exact ⟨σ', by simp [Store.drain, hpop, hdrop, hdrain], hc', hnil⟩

/-- The owners after a queue has been dropped. -/
lemma Counts.exec_dropQueue (hc : Counts σ ω) {q : Q} (hq : q ∉ ω.dropped) :
    ∃ σ', σ.dropQueue q = some σ' ∧ Counts σ' { ω with
      queues := (ω.queues.list q).foldl Family.release ω.queues
      dropped := q :: ω.dropped } := by
  obtain ⟨σ₁, hdrain, hc₁, hnil⟩ := hc.drain hq (Nat.lt_succ_of_le (hc.length_le q))
  refine ⟨{ σ₁ with dropped := q :: σ₁.dropped }, by simp [Store.dropQueue, hdrain],
    hc₁.represents, hc₁.spawned, by simp [hc₁.dropped], hc₁.strong, hc₁.of_count, fun p hp => ?_⟩
  rcases List.mem_cons.mp hp with rfl | hp
  · exact hnil
  · exact hc₁.empty p hp

variable [DecidableEq H]

/-- The owners after a push. -/
lemma Counts.exec_push (hc : Counts σ ω) {h : H} {q : Q} {e : E} (hh : h ∈ ω.held e)
    (hq : q ∉ ω.dropped) :
    ∃ σ', σ.push q e = some σ' ∧ Counts σ' { ω.lose h e with queues := ω.queues.push q e } := by
  have he : ω.count e ≠ 0 := count_ne_zero_of_held hh
  obtain ⟨σ', hpush, hm, hspawned, hdropped, hstrong⟩ := hc.push he hq
  refine ⟨σ', hpush, hc.update e hm (hspawned.trans hc.spawned) (hdropped.trans hc.dropped)
    (hc.of_count e he) (fun _ => id) ?_ (fun x hx => ⟨?_, ?_⟩) fun p hp => ?_⟩
  · have hcount := hc.strong e
    have hlen := List.length_erase_add_one hh
    rw [hstrong]
    simp only [Owned.count, Owned.lose, Function.update_self, Family.home_push_self,
      Option.isSome_some, Bool.toNat_true] at hcount ⊢
    omega
  · rw [hstrong, Function.update_of_ne hx]
  · simp [Owned.count, Owned.lose, Family.home_push, hx]
  · have hpq : p ≠ q := by
      rintro rfl
      exact hq hp
    exact Family.list_push_eq_nil (hc.empty p hp) hpq e

/-- The owners after a release. -/
lemma Counts.exec_release (hc : Counts σ ω) {h : H} {e : E} (hh : h ∈ ω.held e) :
    ∃ σ', σ.release e = some σ' ∧ Counts σ' { ω.lose h e with queues := ω.queues.release e } := by
  obtain ⟨σ', hrelease, hm, hspawned, hdropped, hstrong⟩ := hc.release hh
  refine ⟨σ', hrelease, hc.update e hm (hspawned.trans hc.spawned) (hdropped.trans hc.dropped)
    (hc.of_count e (count_ne_zero_of_held hh)) (fun _ => id) ?_ (fun x hx => ⟨?_, ?_⟩) fun p hp => ?_⟩
  · have hcount := hc.strong e
    have hlen := List.length_erase_add_one hh
    rw [hstrong]
    simp only [Owned.count, Owned.lose, Function.update_self, Family.home_release_self,
      Option.isSome_none, Bool.toNat_false] at hcount ⊢
    omega
  · rw [hstrong, Function.update_of_ne hx]
  · simp [Owned.count, Owned.lose, Family.home_release, hx]
  · exact List.subset_nil.mp (hc.empty p hp ▸ List.erase_subset)

/-- An entry on no circle may be written to. -/
lemma Represents.reset {m : Heap Q E} (hm : Represents m F) {e : E} (he : F.home e = none) :
    Represents (Function.update m (.entry e) QueueEntry.new) F := by
  refine ⟨fun q => (hm.ring q).congr fun x hx => ?_, fun x => ?_⟩
  · have hxe : x ≠ .entry e := by
      rintro rfl
      simp [entry_mem_ringNodes.mp hx] at he
    simp [hxe]
  · by_cases hx : x = e
    · simp [hx, he, Heap.isQueued, QueueEntry.new]
    · simpa [Heap.isQueued, hx] using hm.queued x

/-- The owners after a spawn. -/
lemma Counts.exec_spawn (hc : Counts σ ω) (h : H) {q : Q} {e : E} (he : e ∉ ω.spawned)
    (hq : q ∉ ω.dropped) :
    ∃ σ', σ.spawn q e = some σ' ∧ Counts σ' { ω with
      queues := ω.queues.push q e
      held := Function.update ω.held e [h]
      spawned := e :: ω.spawned } := by
  have hcount : ω.count e = 0 := by
    by_contra hn
    exact he (hc.of_count e hn)
  have hhome : ω.queues.home e = none := by
    cases h : ω.queues.home e with
    | none => rfl
    | some p => exact absurd hcount (count_ne_zero_of_home h)
  -- the memory with the two references that `spawn` starts from
  let σ₁ : Store Q E :=
    { heap := Function.update σ.heap (.entry e) QueueEntry.new
      spawned := e :: σ.spawned
      strong := Function.update (Function.update σ.strong e 1) e 2
      dropped := σ.dropped }
  let ω₁ : Owned Q E H :=
    { ω with held := Function.update ω.held e [h, h], spawned := e :: ω.spawned }
  have hc₁ : Counts σ₁ ω₁ := by
    refine hc.update e (hc.represents.reset hhome) (by simp [σ₁, ω₁, hc.spawned]) hc.dropped
      List.mem_cons_self (List.subset_cons_self e ω.spawned) ?_ (fun x hx => ?_) hc.empty
    · simp [σ₁, ω₁, Owned.count, hhome]
    · simp [σ₁, ω₁, Owned.count, hx]
  have hheld : h ∈ ω₁.held e := by simp [ω₁]
  obtain ⟨σ', hpush, hc'⟩ := hc₁.exec_push hheld hq
  refine ⟨σ', ?_, ?_⟩
  · have hspawned : e ∉ σ.spawned := hc.spawned ▸ he
    simpa [Store.spawn, hspawned, Store.clone, Store.live, σ₁] using hpush
  · simpa [ω₁, Owned.lose] using hc'

/-- Every operation of the owners is one of the memory, which returns the same and keeps the strong
counts. -/
lemma Counts.exec (hc : Counts σ ω) {op : RefOp Q E H} {r : QueueRet E} {ω' : Owned Q E H}
    (hop : ω.exec op = some (r, ω')) : ∃ σ', σ.exec op = some (r, σ') ∧ Counts σ' ω' := by
  cases op with
  | spawn h q e =>
    simp only [Owned.exec] at hop
    split_ifs at hop with he
    obtain ⟨rfl, rfl⟩ := Prod.mk.inj (Option.some.inj hop)
    obtain ⟨σ', hs, hc'⟩ := hc.exec_spawn h he.1 he.2
    exact ⟨σ', by simp [Store.exec, hs], hc'⟩
  | push h q e =>
    simp only [Owned.exec] at hop
    split_ifs at hop with hh
    obtain ⟨rfl, rfl⟩ := Prod.mk.inj (Option.some.inj hop)
    obtain ⟨σ', hs, hc'⟩ := hc.exec_push hh.1 hh.2
    exact ⟨σ', by simp [Store.exec, hs], hc'⟩
  | pop h q =>
    simp only [Owned.exec] at hop
    split_ifs at hop with hq
    obtain ⟨σ', hs, hc'⟩ := hc.exec_pop h hq
    cases hF : ω.queues.pop q with
    | none =>
      simp only [hF, Option.some.injEq, Prod.mk.injEq] at hop
      obtain ⟨rfl, rfl⟩ := hop
      exact ⟨σ', by simp [Store.exec, hs, hF], by simpa [hF] using hc'⟩
    | some x =>
      simp only [hF, Option.some.injEq, Prod.mk.injEq] at hop
      obtain ⟨rfl, rfl⟩ := hop
      exact ⟨σ', by simp [Store.exec, hs, hF], by simpa [hF] using hc'⟩
  | release h e =>
    simp only [Owned.exec] at hop
    split_ifs at hop with hh
    obtain ⟨rfl, rfl⟩ := Prod.mk.inj (Option.some.inj hop)
    obtain ⟨σ', hs, hc'⟩ := hc.exec_release hh
    exact ⟨σ', by simp [Store.exec, hs], hc'⟩
  | clone h e =>
    simp only [Owned.exec] at hop
    split_ifs at hop with hh
    obtain ⟨rfl, rfl⟩ := Prod.mk.inj (Option.some.inj hop)
    have he : ω.count e ≠ 0 := count_ne_zero_of_held hh
    have hs : σ.clone e = _ := if_pos (hc.live_entry he)
    exact ⟨_, by simp [Store.exec, hs], hc.gain (hc.of_count e he)⟩
  | drop h e =>
    simp only [Owned.exec] at hop
    split_ifs at hop with hh
    obtain ⟨rfl, rfl⟩ := Prod.mk.inj (Option.some.inj hop)
    have hs : σ.drop e = _ := if_pos (hc.live_entry (count_ne_zero_of_held hh))
    exact ⟨_, by simp [Store.exec, hs], hc.lose hh⟩
  | upgrade h e =>
    simp only [Owned.exec] at hop
    split_ifs at hop with he hn
    · obtain ⟨rfl, rfl⟩ := Prod.mk.inj (Option.some.inj hop)
      exact ⟨σ, by simp [Store.exec, Store.upgrade, hc.strong, hn], hc⟩
    · obtain ⟨rfl, rfl⟩ := Prod.mk.inj (Option.some.inj hop)
      have hs : σ.clone e = _ := if_pos (hc.live_entry hn)
      exact ⟨_, by simp [Store.exec, Store.upgrade, hc.strong, hn, hs], hc.gain he⟩
  | dropQueue q =>
    simp only [Owned.exec] at hop
    split_ifs at hop with hq
    obtain ⟨rfl, rfl⟩ := Prod.mk.inj (Option.some.inj hop)
    obtain ⟨σ', hs, hc'⟩ := hc.exec_dropQueue hq
    exact ⟨σ', by simp [Store.exec, hs], hc'⟩

end Counting

/-! ## Sequences of operations -/

section Sequences

variable [DecidableEq Q] [DecidableEq E]

/-- A sequence of operations on the memory, with all that is returned. -/
def Store.run (σ : Store Q E) : List (RefOp Q E H) → Option (List (QueueRet E) × Store Q E)
  | [] => some ([], σ)
  | op :: ops => (σ.exec op).bind fun r => (Store.run r.2 ops).map fun t => (r.1 :: t.1, t.2)

/-- The same sequence for the owners. -/
def Owned.run [DecidableEq H] (ω : Owned Q E H) :
    List (RefOp Q E H) → Option (List (QueueRet E) × Owned Q E H)
  | [] => some ([], ω)
  | op :: ops => (ω.exec op).bind fun r => (Owned.run r.2 ops).map fun t => (r.1 :: t.1, t.2)

/-- At the start there is no task. -/
lemma counts_start : Counts (Store.start : Store Q E) (Owned.start : Owned Q E H) := by
  refine ⟨initialised_represents, rfl, rfl, fun e => rfl, fun e he => ?_, by simp [Owned.start]⟩
  exact absurd rfl he

/-- Every run of the owners is one of the memory. -/
lemma Counts.run [DecidableEq H] {σ : Store Q E} {ω : Owned Q E H} (hc : Counts σ ω)
    {ops : List (RefOp Q E H)} {rets : List (QueueRet E)} {ω' : Owned Q E H}
    (hops : ω.run ops = some (rets, ω')) : ∃ σ', σ.run ops = some (rets, σ') ∧ Counts σ' ω' := by
  induction ops generalizing σ ω rets with
  | nil =>
    obtain ⟨rfl, rfl⟩ : [] = rets ∧ ω = ω' := by simpa [Owned.run] using hops
    exact ⟨σ, rfl, hc⟩
  | cons op ops ih =>
    simp only [Owned.run, Option.bind_eq_some_iff, Option.map_eq_some_iff] at hops
    obtain ⟨⟨r, ω₁⟩, hop, ⟨rets', ω₂⟩, hrest, heq⟩ := hops
    obtain ⟨rfl, rfl⟩ := Prod.mk.inj heq
    obtain ⟨σ₁, hs₁, hc₁⟩ := hc.exec hop
    obtain ⟨σ₂, hs₂, hc₂⟩ := ih hc₁ hrest
    exact ⟨σ₂, by simp [Store.run, hs₁, hs₂], hc₂⟩

/-- A sequence of operations whose callers hold the references that they pass follows no pointer to a queue
or a task that is gone, and returns what the operations on lists return.  The strong count of every task is
the number of references outside the queues, plus one if the task is in a queue; a task in a queue has not
been destroyed, and a task has been destroyed exactly if it is in no queue and nobody outside holds it. -/
theorem strong_counts_references [DecidableEq H] {ops : List (RefOp Q E H)} {rets : List (QueueRet E)}
    {ω : Owned Q E H} (hops : Owned.start.run ops = some (rets, ω)) :
    ∃ σ : Store Q E, Store.start.run ops = some (rets, σ) ∧ Represents σ.heap ω.queues ∧
      (∀ e, σ.strong e = (ω.held e).length + (Heap.isQueued σ.heap (.entry e)).toNat) ∧
      (∀ e, Heap.isQueued σ.heap (.entry e) = true → ¬ σ.Destroyed e) ∧
      ∀ e ∈ ω.spawned, σ.Destroyed e ↔
        Heap.isQueued σ.heap (.entry e) = false ∧ ω.held e = [] := by
  obtain ⟨σ, hrun, hc⟩ := counts_start.run hops
  have hstrong : ∀ e, σ.strong e =
      (ω.held e).length + (Heap.isQueued σ.heap (.entry e)).toNat := by
    intro e
    rw [hc.strong, Owned.count, hc.represents.queued]
  refine ⟨σ, hrun, hc.represents, hstrong, fun e hq hd => ?_, fun e he => ?_⟩
  · have hzero : σ.strong e = 0 := hd.2
    rw [hstrong, hq, Bool.toNat_true] at hzero
    omega
  · rw [Store.Destroyed, hc.spawned, hstrong, Nat.add_eq_zero_iff, List.length_eq_zero_iff,
      Bool.toNat_eq_zero]
    exact ⟨fun hd => ⟨hd.2.2, hd.2.1⟩, fun hd => ⟨he, hd.2, hd.1⟩⟩

/-- A task is spawned, taken from its queue by a poll, put to sleep, woken again and aborted; it is
destroyed with its handle. -/
theorem strong_counts_references_of_aborted : ∃ (rets : List (QueueRet ℕ)) (σ : Store Bool ℕ),
    Store.start.run ([.spawn () true 0, .pop () true, .push () false 0, .upgrade () 0,
      .push () true 0, .clone () 0, .release () 0, .drop () 0, .dropQueue true] :
        List (RefOp Bool ℕ Unit)) = some (rets, σ) ∧ σ.Destroyed 0 := by
  obtain ⟨⟨rets, ω⟩, hops, h⟩ := (Option.any_eq_true _ _).mp (show (Owned.start.run [.spawn () true 0,
    .pop () true, .push () false 0, .upgrade () 0, .push () true 0, .clone () 0, .release () 0,
      .drop () 0, .dropQueue true]).any (fun r : _ × Owned Bool ℕ Unit =>
        decide (0 ∈ r.2.spawned ∧ r.2.queues.home 0 = none ∧ r.2.held 0 = [])) = true by decide)
  obtain ⟨hspawned, hhome, hheld⟩ := of_decide_eq_true h
  obtain ⟨σ, hrun, hm, -, -, hdestroyed⟩ := strong_counts_references hops
  exact ⟨rets, σ, hrun, (hdestroyed 0 hspawned).mpr ⟨by rw [hm.queued, hhome]; rfl, hheld⟩⟩

end Sequences

end Epox

import Epox.Executor.Queueing
import Epox.Executor.Shutdown

/-!
# What becomes of the tasks of a replaced executor

While `run` drops the queues of the executor it has replaced, the destructors of the futures may call any
function of the crate, on the new executor.  An observer (`Releases`) notes which tasks were queued when an
executor was replaced, and how often a queue has given up its reference to a task since then.

When the old executor has been dropped, no task that was queued on it or spawned on it is linked in any
queue, and of the former each has been released exactly once (`teardown_unlinks`).  This holds in every run
in which no wake and no event puts such a task into a queue of the new executor meanwhile; events can, since
`epoll_wait` does not compare the pipe of the task with that of the executor, and so can wakes if the pipe
of the new executor has got the descriptor number of a pipe that was closed before.
-/

namespace Epox

/-- What an observer knows of the tasks of replaced executors. -/
structure Releases where
  /-- The executor on which the task was queued when it was replaced. -/
  old : TaskId → Option ExecId
  /-- How often a queue has given up its reference to the task since then. -/
  released : TaskId → ℕ

/-- No executor has been replaced. -/
def Releases.none : Releases := ⟨fun _ => Option.none, fun _ => 0⟩

namespace Thread

variable {V : Type} {s s' : Thread V}

/-- The task is in a queue of the executor. -/
def queuedOn (s : Thread V) (x : ExecId) (t : TaskId) : Bool :=
  (s.queues.home t).any fun q => q.1 == x

/-- How the observer follows a step. -/
def observeReleases (s : Thread V) (a : Action V) (s' : Thread V) (g : Releases) : Releases :=
  match a with
  | .replace (some _) =>
    { old t := if s.queuedOn s.cur t then some s.cur else g.old t
      released t := if s.queuedOn s.cur t then 0 else g.released t }
  | _ =>
    { g with released t :=
        if s.queues.home t ≠ none ∧ s'.queues.home t = none then g.released t + 1 else g.released t }

/-- A thread and what the observer knows. -/
abbrev Followed (V : Type) := Thread V × Releases

/-- A thread at its start. -/
abbrev FollowedStart (p : Followed V) : Prop := p.1.IsStart ∧ p.2 = .none

/-- The executors that are being dropped, the one dropped last first. -/
def dropped (s : Thread V) : List ExecId := s.stack.filterMap Frame.replaced

/-- The task was queued on the executor when it was replaced, or spawned on it. -/
def Old (p : Followed V) (x : ExecId) (t : TaskId) : Prop :=
  p.2.old t = some x ∨ t < p.1.nTasks ∧ (p.1.tasks t).exec = x

instance (p : Followed V) (x : ExecId) (t : TaskId) : Decidable (Old p x t) := by
  unfold Old
  infer_instance

/-- The step does not aim at a task of an executor that is being dropped, unless the task has completed. -/
def Avoids (p : Followed V) (a : Action V) : Prop :=
  ∀ t ∈ p.1.reached a, p.1.Wakeable t → ∀ x ∈ p.1.dropped, ¬ Old p x t

instance (p : Followed V) (a : Action V) : Decidable (Avoids p a) := by
  unfold Avoids
  infer_instance

/-! ## How the stack changes -/

/-- How the stack changes in a step. -/
inductive StackChange (s : Thread V) (a : Action V) (s' : Thread V) : Prop
  | same (h : s'.stack = s.stack)
  /-- The top is replaced by frames that hold no other task and drop no other executor. -/
  | jump (f : Frame) (fs rest : List Frame) (hstack : s.stack = f :: rest)
      (hstack' : s'.stack = fs ++ rest) (hheld : ∀ g ∈ fs, ∀ t, g.held = some t → f.held = some t)
      (hreplaced : ∀ g ∈ fs, ∀ x, g.replaced = some x → f.replaced = some x)
  /-- A poll of the front of the run queues begins. -/
  | poll (f f' : Frame) (rest : List Frame) (t : TaskId) (hstack : s.stack = f :: rest)
      (hstack' : s'.stack = .runTask t .polling :: f' :: rest) (hf : f.loop = some f')
      (hfront : s.front = some t)
  /-- The executor is replaced. -/
  | replace (rest : List Frame) (fd : RawFd) (ha : a = .replace (some fd))
      (hstack : s.stack = .run .replace :: rest)
      (hstack' : s'.stack = .run (.teardown s.cur) :: rest)

/-- Frames that replace another one hold no other task. -/
lemma Frame.Replaces.stackChange {a : Action V} {f : Frame} {fs rest : List Frame}
    (h : Frame.Replaces f fs) (hstack : s.stack = f :: rest) (hstack' : s'.stack = fs ++ rest) :
    StackChange s a s' := by
  refine .jump f fs rest hstack hstack' (fun g hg t ht => ?_) h.replaced
  have hmem : t ∈ fs.filterMap Frame.held := List.mem_filterMap.mpr ⟨g, hg, ht⟩
  simpa using h.held.subset hmem

/-- How the stack changes in a move that does not panic. -/
lemma Move.stackChange {a : Action V} (hm : Move s a s') (hp : s'.panicked = none) :
    StackChange s a s' := by
  -- A call pushes a frame onto code of the caller.
  have hpush : ∀ g : Frame, s.inUserCode = true → g.held = none → g.replaced = none →
      s'.stack = g :: s.stack → StackChange s a s' := by
    intro g hu hheld hreplaced hstack'
    obtain ⟨f, rest, hstack, -⟩ := exists_of_inUserCode hu
    refine .jump f [g, f] rest hstack (by rw [hstack', hstack]; rfl) ?_ ?_
    · intro h hmem t ht
      rcases List.mem_pair.mp hmem with rfl | rfl
      · simp [hheld] at ht
      · exact ht
    · intro h hmem x hx
      rcases List.mem_pair.mp hmem with rfl | rfl
      · simp [hreplaced] at hx
      · exact hx
  have hone : ∀ f g rest, s.stack = f :: rest → s'.stack = g :: rest →
      (∀ t, g.held = some t → f.held = some t) → (∀ x, g.replaced = some x → f.replaced = some x) →
        StackChange s a s' := by
    intro f g rest hstack hstack' hheld hreplaced
    refine .jump f [g] rest hstack hstack' ?_ ?_
    · intro h hmem
      rw [List.mem_singleton.mp hmem]
      exact hheld
    · intro h hmem
      rw [List.mem_singleton.mp hmem]
      exact hreplaced
  have hreturn : ∀ f rest, s.stack = f :: rest → s'.stack = rest → StackChange s a s' :=
    fun f rest hstack hstack' => .jump f [] rest hstack hstack' (by simp) (by simp)
  cases hm with
  | stay hu heff => exact .same heff.steady.stack
  | jump hstack hj => exact (hj.replaces hstack).stackChange hstack rfl
  | crash heff hpanic => simp [panic] at hp
  | selectCrash => simp [panic] at hp
  | select hstack hf hfront hb => exact .poll _ _ _ _ hstack rfl hf hfront
  | repoll hstack hpc heff => exact hone _ _ _ hstack rfl (by simp [Frame.held]) (by simp [Frame.replaced])
  | pending hstack => exact hone _ _ _ hstack rfl (by simp [Frame.held]) (by simp [Frame.replaced])
  | sleep hstack hq => exact hreturn _ _ hstack rfl
  | ready hstack => exact hone _ _ _ hstack rfl (by simp [Frame.held]) (by simp [Frame.replaced])
  | complete hstack hfs =>
    rcases hfs with rfl | rfl
    · exact hreturn _ _ hstack rfl
    · exact hone _ _ _ hstack rfl (by simp [Frame.held]) (by simp [Frame.replaced])
  | replace hstack hfd => exact .replace _ _ rfl hstack rfl
  | discard hstack hq hpc =>
    refine hone _ _ _ hstack rfl (by simp [Frame.held]) ?_
    rcases hpc with rfl | rfl <;> exact fun _ => id
  | close hstack => exact hreturn _ _ hstack rfl
  | spawn hu =>
    refine .same ?_
    rw [Thread.spawn, enqueue_of_not_completed (by simp)]
  | abort | handle | shutdown | fdDrop | foreignUpgrade => exact .same rfl
  | blockOn hu => exact hpush _ hu rfl rfl rfl
  | fdNew hu => exact .same (fdNew_steady s _ _ _ _).stack
  | enterPollWith hu => exact hpush _ hu rfl rfl rfl
  | closure hstack => exact hreturn _ _ hstack rfl
  | foreignWrite => exact .same (foreignWrite_effects s _).steady.stack
  | foreignBlockOn => exact .same (foreignBlockOn_effects s _).steady.stack

/-- A frame that drops an executor holds no task. -/
lemma Frame.held_of_replaced {f : Frame} {x : ExecId} (h : f.replaced = some x) : f.held = none := by
  unfold Frame.replaced at h
  split at h <;> first | rfl | simp at h

/-- Replacing the executor. -/
lemma step_replace {fd : RawFd} (h : s.step (.replace (some fd)) = some s') :
    ∃ rest, s.stack = .run .replace :: rest ∧ s'.stack = .run (.teardown s.cur) :: rest ∧
      s'.cur = s.cur + 1 ∧ s'.queues = s.queues ∧ s'.tasks = s.tasks ∧ s'.nTasks = s.nTasks := by
  cases (acts_of_step h).2 with
  | @replace fd rest hstack => exact ⟨rest, hstack, rfl, rfl, rfl, rfl, rfl⟩

/-! ## The tasks of the executors that are being dropped -/

/-- The tasks of the executors that are being dropped are still in their queues or in none, each has been
released once or is still queued, and no call above the one that drops them holds any of them. -/
structure Clean (p : Followed V) : Prop where
  known : ∀ t x, p.2.old t = some x → t < p.1.nTasks ∧ x < p.1.cur
  places : ∀ x ∈ p.1.dropped, ∀ t, Old p x t → p.1.queues.home t = none ∨ p.1.queuedOn x t = true
  counts : ∀ x ∈ p.1.dropped, ∀ t, p.2.old t = some x →
    p.2.released t = if p.1.queues.home t = none then 1 else 0
  above : p.1.stack.Pairwise fun g f =>
    ∀ x, f.replaced = some x → ∀ t, g.held = some t → ¬ Old p x t

variable {p p' : Followed V} {a : Action V} {x : ExecId} {t : TaskId}

/-- The executors that are being dropped. -/
lemma mem_dropped : x ∈ s.dropped ↔ ∃ f ∈ s.stack, f.replaced = some x := by
  simp [dropped, List.mem_filterMap]

/-- The executors that are being dropped have been replaced. -/
lemma Wf.lt_of_dropped (h : s.Wf) (hx : x ∈ s.dropped) : x < s.cur := by
  obtain ⟨f, hf, hfx⟩ := mem_dropped.mp hx
  exact h.replaced f hf x hfx

/-- A task of a replaced executor has been spawned. -/
lemma Clean.lt_of_old (h : Clean p) (ho : Old p x t) : t < p.1.nTasks :=
  ho.elim (fun hold => (h.known t x hold).1) And.left

/-- The queue of a task of an executor that is being dropped only loses it. -/
lemma Clean.home (h : Clean p) (hs : observe step observeReleases p a = some p')
    (hp : p'.1.panicked = none) (hC : Avoids p a) (hx : x ∈ p.1.dropped) (ho : Old p x t) :
    p'.1.queues.home t = none ∨ p'.1.queues.home t = p.1.queues.home t := by
  obtain ⟨hstep, -⟩ := observe_eq_some.mp hs
  rcases home_of_step hstep hp t with hhome | ⟨-, hnone | heq | ⟨rest, hstack⟩⟩
  · right
    have hnot : ¬ (t ∈ p.1.reached a ∧ p.1.Wakeable t) := fun hr => hC t hr.1 hr.2 x hx ho
    rw [hhome, homeAfter, if_neg hnot]
  · exact .inl hnone
  · exact absurd heq (h.lt_of_old ho).ne
  · -- The call that drops the executor is below the one that holds the task.
    obtain ⟨f, hf, hfx⟩ := mem_dropped.mp hx
    have habove := h.above
    rw [hstack, List.pairwise_cons] at habove
    rcases List.mem_cons.mp (hstack ▸ hf) with rfl | hf
    · simp [Frame.replaced] at hfx
    · exact absurd ho (habove.1 f hf x hfx t rfl)

/-- A step makes no task one of an executor that was replaced before. -/
lemma old_of_step (hs : observe step observeReleases p a = some p') (hx : x < p.1.cur)
    (ho : Old p' x t) : Old p x t := by
  obtain ⟨hstep, hg⟩ := observe_eq_some.mp hs
  have hl := (move_of_step hstep).2.later
  rcases ho with hold | ⟨hlt, hexec⟩
  · left
    rw [hg] at hold
    unfold observeReleases at hold
    split at hold
    · dsimp only at hold
      split_ifs at hold
      · exact absurd (Option.some.inj hold) hx.ne'
      · exact hold
    · exact hold
  · right
    have ht : t < p.1.nTasks := by
      by_contra hnot
      exact hx.ne' (hl.spawned t (not_lt.mp hnot) hlt ▸ hexec)
    exact ⟨ht, hl.exec t ht ▸ hexec⟩

/-- The releases of a task of an executor that is being dropped are counted. -/
lemma Clean.counts_step (h : Clean p) (hs : observe step observeReleases p a = some p')
    (hp : p'.1.panicked = none) (hC : Avoids p a) (hwf : p.1.Wf) (hx : x ∈ p.1.dropped)
    (ho : p'.2.old t = some x) : p'.2.released t = if p'.1.queues.home t = none then 1 else 0 := by
  have hold := old_of_step hs (hwf.lt_of_dropped hx) (.inl ho)
  have hhome := h.home hs hp hC hx hold
  obtain ⟨hstep, hg⟩ := observe_eq_some.mp hs
  rw [hg] at ho ⊢
  unfold observeReleases at ho ⊢
  split at ho
  · obtain ⟨rest, -, -, -, hqueues, -⟩ := step_replace hstep
    dsimp only at ho ⊢
    split_ifs at ho with hq
    · exact absurd (Option.some.inj ho) (hwf.lt_of_dropped hx).ne'
    · rw [if_neg hq, hqueues]
      exact h.counts x hx t ho
  · have hcount := h.counts x hx t ho
    dsimp only at ho ⊢
    by_cases hq : p.1.queues.home t = none
    · have hq' : p'.1.queues.home t = none := by
        rcases hhome with hhome | hhome
        · exact hhome
        · rw [hhome, hq]
      simp [hq, hq'] at hcount ⊢
      exact hcount
    · rcases hhome with hhome | hhome
      · simp [hq, hhome] at hcount ⊢
        exact hcount
      · simp [hq, hhome] at hcount ⊢
        exact hcount

/-- The executors that are being dropped after a step, other than one that it replaces. -/
lemma StackChange.dropped (h : StackChange s a s') (hx : x ∈ s'.dropped) :
    x ∈ s.dropped ∨ (∃ fd, a = .replace (some fd)) ∧ x = s.cur := by
  obtain ⟨g, hg, hgx⟩ := mem_dropped.mp hx
  cases h with
  | same h => exact .inl (mem_dropped.mpr ⟨g, h ▸ hg, hgx⟩)
  | jump f fs rest hstack hstack' hheld hreplaced =>
    left
    rcases List.mem_append.mp (hstack' ▸ hg) with hg | hg
    · exact mem_dropped.mpr ⟨f, by simp [hstack], hreplaced g hg x hgx⟩
    · exact mem_dropped.mpr ⟨g, by simp [hstack, hg], hgx⟩
  | poll f f' rest u hstack hstack' hf hfront =>
    left
    rcases List.mem_cons.mp (hstack' ▸ hg) with rfl | hg
    · simp [Frame.replaced] at hgx
    · rcases List.mem_cons.mp hg with rfl | hg
      · rcases Frame.of_loop hf with ⟨-, rfl⟩ | ⟨b, -, rfl⟩ <;> simp [Frame.replaced] at hgx
      · exact mem_dropped.mpr ⟨g, by simp [hstack, hg], hgx⟩
  | replace rest fd ha hstack hstack' =>
    rcases List.mem_cons.mp (hstack' ▸ hg) with rfl | hg
    · exact .inr ⟨⟨fd, ha⟩, (Option.some.inj hgx).symm⟩
    · exact .inl (mem_dropped.mpr ⟨g, by simp [hstack, hg], hgx⟩)

/-- No call above one that drops an executor gets hold of a task of that executor. -/
lemma Clean.above_step (h : Clean p) (hs : observe step observeReleases p a = some p')
    (hp : p'.1.panicked = none) (hwf : p.1.Wf) :
    p'.1.stack.Pairwise fun g f => ∀ x, f.replaced = some x → ∀ t, g.held = some t → ¬ Old p' x t := by
  have hold : ∀ f ∈ p.1.stack, ∀ x, f.replaced = some x → ∀ t, ¬ Old p x t → ¬ Old p' x t :=
    fun f hf x hfx t hnot ho => hnot (old_of_step hs (hwf.replaced f hf x hfx) ho)
  have hbefore : p.1.stack.Pairwise fun g f =>
      ∀ x, f.replaced = some x → ∀ t, g.held = some t → ¬ Old p' x t := by
    refine h.above.imp_of_mem fun {g f} _ hf hR x hfx t hgt => ?_
    exact hold f hf x hfx t (hR x hfx t hgt)
  cases (move_of_step (observe_eq_some.mp hs).1).2.stackChange hp with
  | same hstack => rwa [hstack]
  | jump f fs rest hstack hstack' hheld hreplaced =>
    rw [hstack, List.pairwise_cons] at hbefore
    rw [hstack', List.pairwise_append]
    refine ⟨?_, hbefore.2, fun g hg f' hf' x hfx t hgt => hbefore.1 f' hf' x hfx t (hheld g hg t hgt)⟩
    -- The frame that is replaced does not both hold a task and drop an executor.
    refine List.pairwise_of_forall_mem_list fun g hg g' hg' x hgx t hgt => ?_
    simp [Frame.held_of_replaced (hreplaced g' hg' x hgx)] at hheld
    exact absurd hgt (hheld g hg t)
  | poll f f' rest u hstack hstack' hf hfront =>
    rw [hstack, List.pairwise_cons] at hbefore
    obtain ⟨q, hq⟩ := home_of_front hfront
    have hf' : f'.held = none ∧ f'.replaced = none := by
      rcases Frame.of_loop hf with ⟨-, rfl⟩ | ⟨b, -, rfl⟩ <;> exact ⟨rfl, rfl⟩
    rw [hstack', List.pairwise_cons, List.pairwise_cons]
    refine ⟨fun g hg x hgx t ht ho => ?_, fun g hg x hgx t ht => ?_, hbefore.2⟩
    · obtain rfl : u = t := Option.some.inj ht
      rcases List.mem_cons.mp hg with rfl | hg
      · simp [hf'.2] at hgx
      · have hmem : g ∈ p.1.stack := by simp [hstack, hg]
        have hx := hwf.replaced g hmem x hgx
        rcases h.places x (mem_dropped.mpr ⟨g, hmem, hgx⟩) u (old_of_step hs hx ho) with hnone | hqueued
        · simp [hq] at hnone
        · simp [queuedOn, hq, hx.ne'] at hqueued
    · simp [hf'.1] at ht
  | replace rest fd ha hstack hstack' =>
    rw [hstack, List.pairwise_cons] at hbefore
    rw [hstack', List.pairwise_cons]
    exact ⟨fun g hg x hgx t ht => by simp [Frame.held] at ht, hbefore.2⟩

/-- What the observer knows after the executor was replaced. -/
lemma observe_replace {fd : RawFd} (hs : observe step observeReleases p (.replace (some fd)) = some p') :
    p'.2.old t = (if p.1.queuedOn p.1.cur t then some p.1.cur else p.2.old t) ∧
      p'.2.released t = if p.1.queuedOn p.1.cur t then 0 else p.2.released t := by
  obtain ⟨-, hg⟩ := observe_eq_some.mp hs
  rw [hg]
  exact ⟨rfl, rfl⟩

/-- The observer notes the executor of a task only when it is replaced. -/
lemma observe_old (hs : observe step observeReleases p a = some p') (ho : p'.2.old t = some x) :
    p.2.old t = some x ∨ (∃ fd, a = .replace (some fd)) ∧ x = p.1.cur ∧ p.1.queuedOn x t = true := by
  have hg := (observe_eq_some.mp hs).2
  rw [hg] at ho
  unfold observeReleases at ho
  split at ho
  · rename_i fd
    dsimp only at ho
    split_ifs at ho with hq
    · obtain rfl := Option.some.inj ho
      exact .inr ⟨⟨fd, rfl⟩, rfl, hq⟩
    · exact .inl ho
  · exact .inl ho

/-- A task that is queued on an executor. -/
lemma queuedOn_iff : s.queuedOn x t = true ↔ ∃ q, s.queues.home t = some (x, q) := by
  simp only [queuedOn, Option.any_eq_true, beq_iff_eq]
  constructor
  · rintro ⟨⟨y, q⟩, hq, rfl⟩
    exact ⟨q, hq⟩
  · rintro ⟨q, hq⟩
    exact ⟨(x, q), hq, rfl⟩

/-- When the executor is replaced, the tasks that were spawned on it are in its queues or in none. -/
lemma queuedOn_cur (hr : Reachable step IsStart s) (hexec : (s.tasks t).exec = s.cur) :
    s.queues.home t = none ∨ s.queuedOn s.cur t = true := by
  cases hq : s.queues.home t with
  | none => exact .inl rfl
  | some q =>
    obtain ⟨y, q⟩ := q
    obtain ⟨hle, hge, -⟩ := ((abs_reached hr).placed t).2 y q hq
    have hle : (s.tasks t).exec ≤ y := hle
    rw [hexec] at hle
    obtain rfl : y = s.cur := le_antisymm hge hle
    exact .inr (queuedOn_iff.mpr ⟨q, hq⟩)

/-- A step that avoids the tasks of the executors that are being dropped leaves the thread clean. -/
lemma clean_step (hr : Reachable step IsStart p.1) (hs : observe step observeReleases p a = some p')
    (hp : p'.1.panicked = none) (hC : Avoids p a) (h : Clean p) : Clean p' := by
  have hwf := wf_of_reachable hr
  have hstep := (observe_eq_some.mp hs).1
  have hm := (move_of_step hstep).2
  have hl := hm.later
  have hchange := hm.stackChange hp
  refine ⟨fun t x ho => ?_, fun x hx t ho => ?_, fun x hx t ho => ?_, h.above_step hs hp hwf⟩
  · rcases observe_old hs ho with ho | ⟨⟨fd, rfl⟩, rfl, hq⟩
    · exact ⟨(h.known t x ho).1.trans_le hl.nTasks, (h.known t x ho).2.trans_le hl.cur⟩
    · obtain ⟨q, hq⟩ := queuedOn_iff.mp hq
      obtain ⟨rest, -, -, hcur, -, -, hn⟩ := step_replace hstep
      exact ⟨hn ▸ hwf.ids t (alive_of_home hq), hcur ▸ Nat.lt_succ_self _⟩
  · rcases hchange.dropped hx with hx | ⟨⟨fd, rfl⟩, rfl⟩
    · have ho := old_of_step hs (hwf.lt_of_dropped hx) ho
      rcases h.home hs hp hC hx ho with hnone | hsame
      · exact .inl hnone
      · rw [queuedOn, hsame]
        exact h.places x hx t ho
    · obtain ⟨rest, -, -, -, hqueues, htasks, hn⟩ := step_replace hstep
      rw [queuedOn, hqueues]
      rcases ho with ho | ⟨hlt, hexec⟩
      · rcases observe_old hs ho with ho | ⟨-, -, hq⟩
        · exact absurd (h.known t _ ho).2 (lt_irrefl _)
        · exact .inr hq
      · exact queuedOn_cur hr (htasks ▸ hexec)
  · rcases hchange.dropped hx with hx | ⟨⟨fd, rfl⟩, rfl⟩
    · exact h.counts_step hs hp hC hwf hx ho
    · obtain ⟨rest, -, -, -, hqueues, -, -⟩ := step_replace hstep
      rcases observe_old hs ho with ho | ⟨-, -, hq⟩
      · exact absurd (h.known t _ ho).2 (lt_irrefl _)
      · obtain ⟨q, hq'⟩ := queuedOn_iff.mp hq
        rw [(observe_replace hs).2, if_pos hq, hqueues, if_neg (by simp [hq'])]

/-- Every run whose steps avoid the tasks of the executors that are being dropped keeps the thread clean. -/
lemma clean_of_reachable (h : ReachableUnder (observe step observeReleases) FollowedStart Avoids p)
    (hp : p.1.panicked = none) : Clean p := by
  refine h.invariant (P := fun p => p.1.panicked = none → Clean p) ?_ ?_ hp
  · rintro p ⟨⟨pipeWr, pipeCapacity, -, hstart⟩, hg⟩ -
    have hnil : p.1.dropped = [] := by simp [hstart, start, dropped, Frame.replaced]
    refine ⟨fun t x ho => by simp [hg, Releases.none] at ho, ?_, ?_, ?_⟩
    · simp [hnil]
    · simp [hnil]
    · simp [hstart, start]
  · intro p a p' hr ih hC hs hp'
    exact clean_step hr.of_observe hs hp' hC (ih (move_of_step (observe_eq_some.mp hs).1).1)

/-- A step that puts no task of an executor that is being dropped into a queue of the current one avoids
these tasks. -/
lemma Clean.avoids_iff (h : Clean p) (hwf : p.1.Wf) (hs : observe step observeReleases p a = some p')
    (hp : p'.1.panicked = none) : Avoids p a ↔
      ∀ x ∈ p.1.dropped, ∀ t, Old p x t → ∀ q, p'.1.queues.home t ≠ some (p.1.cur, q) := by
  constructor
  · intro hC x hx t ho q hq
    rcases h.home hs hp hC hx ho with hnone | hsame
    · simp [hnone] at hq
    · rcases h.places x hx t ho with hnone | hqueued
      · simp [hsame, hnone] at hq
      · obtain ⟨r, hr⟩ := queuedOn_iff.mp hqueued
        obtain ⟨hx', -⟩ := Prod.mk.inj (Option.some.inj (hr.symm.trans (hsame.symm.trans hq)))
        exact (hwf.lt_of_dropped hx).ne hx'
  · intro hnot t ht hw x hx ho
    rcases home_of_step (observe_eq_some.mp hs).1 hp t with hhome | ⟨hnil, -⟩
    · exact hnot x hx t ho _ (hhome.trans (if_pos ⟨ht, hw⟩))
    · simp [hnil] at ht

/-- A step of the loop that drops the queues of an executor takes a task out, or the executor has been
dropped: its tasks are in no queue, and those that were queued on it have been released once. -/
lemma Clean.step_teardown (h : Clean p) {k : KernelAnswer} {rest : List Frame}
    (hs : observe step observeReleases p (.go k) = some p')
    (hstack : p.1.stack = .run (.teardown x) :: rest) :
    p'.1.queued x < p.1.queued x ∨ Returned rest x (p.1.execs x).shutdown p'.1 ∧
      (∀ t, Old p x t → p'.1.queues.home t = none) ∧ ∀ t, p'.2.old t = some x → p'.2.released t = 1 := by
  obtain ⟨hstep, hg⟩ := observe_eq_some.mp hs
  rcases Thread.step_teardown hstack hstep with ⟨hlt, -⟩ | ⟨hret, hqueues⟩
  · exact .inl hlt
  · have hx : x ∈ p.1.dropped := mem_dropped.mpr ⟨.run (.teardown x), by simp [hstack], rfl⟩
    have hnone : ∀ t, Old p x t → p.1.queues.home t = none := by
      intro t ho
      refine (h.places x hx t ho).resolve_right fun hqueued => ?_
      obtain ⟨q, hq⟩ := queuedOn_iff.mp hqueued
      have hmem := (p.1.queues.mem_list (x, q) t).mpr hq
      rw [← hqueues, hret.queues q] at hmem
      simp at hmem
    refine .inr ⟨hret, fun t ho => hqueues ▸ hnone t ho, fun t ho => ?_⟩
    have ho : p.2.old t = some x := by simpa [hg, observeReleases] using ho
    have hcount := h.counts x hx t ho
    simpa [hg, observeReleases, hnone t (.inl ho)] using hcount

/-- While a replaced executor is dropped, the tasks that were queued on it or spawned on it are in its
queues or in none.  Whatever the destructors do, its queues only lose tasks, each step of the loop takes one
out until none is left, and the tasks they spawn enter the queues of the new executor only.  When the
executor has been dropped its tasks are in no queue, and those that were queued on it have been released
once.  This holds in every run whose steps avoid the tasks of executors that are being dropped; these are
the steps that put none of them into a queue of the new executor. -/
theorem teardown_unlinks (h : ReachableUnder (observe step observeReleases) FollowedStart Avoids p)
    (hp : p.1.panicked = none) :
    (∀ x ∈ p.1.dropped, ∀ t, Old p x t → p.1.queues.home t = none ∨ p.1.queuedOn x t = true) ∧
    (∀ x rest, p.1.stack = .run (.teardown x) :: rest →
      (∀ k p', observe step observeReleases p (.go k) = some p' →
        p'.1.queued x < p.1.queued x ∨ Returned rest x (p.1.execs x).shutdown p'.1 ∧
          (∀ t, Old p x t → p'.1.queues.home t = none) ∧
            ∀ t, p'.2.old t = some x → p'.2.released t = 1) ∧
      ∃ s', Relation.ReflTransGen GoesOn p.1 s' ∧ Returned rest x (p.1.execs x).shutdown s') ∧
    (∀ x ∈ p.1.dropped, ∀ a s', p.1.step a = some s' → s'.queued x ≤ p.1.queued x) ∧
    (∀ t y q, p.1.queues.home t = some (y, q) → (p.1.tasks t).exec ≤ y) ∧
    (∀ x ∈ p.1.dropped, ∀ priority s', p.1.step (.spawn priority) = some s' →
      x < (s'.tasks p.1.nTasks).exec ∧
        s'.queues.home p.1.nTasks = some (p.1.cur, runq priority)) ∧
    ∀ a p', observe step observeReleases p a = some p' → p'.1.panicked = none →
      (Avoids p a ↔ ∀ x ∈ p.1.dropped, ∀ t, Old p x t → ∀ q, p'.1.queues.home t ≠ some (p.1.cur, q)) := by
  have hr := h.of_observe
  have hwf := wf_of_reachable hr
  have hclean := clean_of_reachable h hp
  refine ⟨hclean.places, fun x rest hstack => ⟨fun k p' hs => hclean.step_teardown hs hstack, ?_⟩,
    fun x hx a s' hs => queued_le hr hs (hwf.lt_of_dropped hx), fun t y q hq => ?_,
    fun x hx priority s' hs => ?_, fun a p' hs hp' => hclean.avoids_iff hwf hs hp'⟩
  · exact teardown_returns hstack hp
  · exact (((abs_reached hr).placed t).2 y q hq).1
  · cases (acts_of_step hs).2
    rw [Thread.spawn, enqueue_of_not_completed (by simp)]
    simp [hwf.lt_of_dropped hx]

/-- The destructor of a task that was queued aborts another one and spawns a third. -/
theorem teardown_unlinks_of_abort : ∃ p p' : Followed Unit,
    ReachableUnder (observe step observeReleases) FollowedStart Avoids p ∧
      observe step observeReleases p (.go (.ok [])) = some p' ∧ p'.1.stack = [.user] ∧
        p'.2.old 1 = some 0 ∧ p'.2.released 1 = 1 ∧ p'.2.old 2 = some 0 ∧ p'.2.released 2 = 1 ∧
          p'.1.queues.home 3 = some (1, .runqNormal) := by
  obtain ⟨p, hp, h⟩ := exists_observed (V := Unit) observeReleases .none Avoids
    [.spawn .normal, .spawn .normal, .dropHandle 1, .spawn .normal, .shutdown, .run, .go (.ok []),
      .ready (), .go (.ok []), .go (.ok []), .go (.ok []), .replace (some 4), .go (.ok []),
      .abort 2, .spawn .normal, .finish]
    (fun p => (observe step observeReleases p (.go (.ok []))).any fun p' : Followed Unit => decide (
      p.1.panicked = none ∧ p.1.stack = [.run (.teardown 0), .user] ∧ p.1.queued 0 = 0 ∧
        p'.2.old 1 = some 0 ∧ p'.2.old 2 = some 0 ∧ p'.1.queues.home 3 = some (1, .runqNormal)))
    (by decide)
  obtain ⟨p', hs, h⟩ := (Option.any_eq_true _ _).mp h
  obtain ⟨hn, hstack, hqueued, h1, h2, h3⟩ := of_decide_eq_true h
  obtain ⟨-, hloop, -⟩ := teardown_unlinks hp hn
  obtain ⟨hret, -, hreleased⟩ := ((hloop 0 _ hstack).1 _ p' hs).resolve_left (by simp [hqueued])
  exact ⟨p, p', hp, hs, hret.stack, h1, hreleased 1 h1, h2, hreleased 2 h2, h3⟩

/-- A task of the old executor is in a queue of the new one when the old one has been dropped: the
destructor of another task has waited for an event of an `Fd` that the task polls; or the destructor has
woken it, and the pipe of the new executor has the descriptor number of the pipe of the task. -/
theorem linked_after_teardown :
    (∃ p p' : Followed Unit, Reachable (observe step observeReleases) FollowedStart p ∧
      p.1.stack = [.run (.teardown 0), .user] ∧
        observe step observeReleases p (.go (.ok [])) = some p' ∧ Returned [.user] 0 true p'.1 ∧
          p'.2.old 2 = some 0 ∧ p'.1.queues.home 2 = some (1, .runqNormal)) ∧
    ∃ p p' : Followed Unit, Reachable (observe step observeReleases) FollowedStart p ∧
      p.1.stack = [.run (.teardown 1), .user] ∧
        observe step observeReleases p (.go (.ok [])) = some p' ∧ Returned [.user] 1 true p'.1 ∧
          p'.2.old 0 = some 1 ∧ p'.1.queues.home 0 = some (2, .runqNormal) := by
  have key : ∀ (actions : List (Action Unit)) (x : ExecId) (t : TaskId),
      ((exec (observe step observeReleases) (fun _ _ => decide True) (start Unit 3 16, .none) actions).any
        fun p => (observe step observeReleases p (.go (.ok []))).any fun p' : Followed Unit => decide (
          p.1.stack = [.run (.teardown x), .user] ∧ p.1.queued x = 0 ∧
            (p.1.execs x).shutdown = true ∧ p'.2.old t = some x ∧
              p'.1.queues.home t = some (x + 1, .runqNormal))) = true →
      ∃ p p' : Followed Unit, Reachable (observe step observeReleases) FollowedStart p ∧
        p.1.stack = [.run (.teardown x), .user] ∧
          observe step observeReleases p (.go (.ok [])) = some p' ∧ Returned [.user] x true p'.1 ∧
            p'.2.old t = some x ∧ p'.1.queues.home t = some (x + 1, .runqNormal) := by
    intro actions x t hexec
    obtain ⟨p, hp, h⟩ := exists_observed (V := Unit) observeReleases .none (fun _ _ => True)
      actions _ hexec
    obtain ⟨p', hs, h⟩ := (Option.any_eq_true _ _).mp h
    obtain ⟨hstack, hqueued, hshutdown, hold, hhome⟩ := of_decide_eq_true h
    have hret := (Thread.step_teardown hstack (observe_eq_some.mp hs).1).resolve_left fun hlt => by
      simp [hqueued] at hlt
    exact ⟨p, p', hp, hstack, hs, hshutdown ▸ hret.1, hold, hhome⟩
  constructor
  · exact key [.spawn .normal, .spawn .normal, .dropHandle 1, .spawn .normal, .shutdown, .run,
      .go (.ok []), .ready (), .go (.ok []), .go (.ok []), .go (.ok []), .replace (some 4),
      .go (.ok []), .fdNew 5 1#32 true true, .pollWith 0 (.task 2) (.ok []), .closure .wouldBlock,
      .blockOn, .pending, .go (.ok []), .go (.ok [.fd 0 1#32]), .ready (), .finish] 0 2 (by decide)
  · exact key [.spawn .normal, .run, .go (.ok []), .run, .go (.ok []), .go (.ok []),
      .replace (some 4), .go (.ok []), .spawn .normal, .dropHandle 1, .spawn .normal, .shutdown,
      .pending, .go (.ok []), .go (.ok []), .replace (some 3), .go (.ok []), .wake (.task 0) (.ok []),
      .finish, .go (.ok [])] 1 0 (by decide)

end Thread

end Epox

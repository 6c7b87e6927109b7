import Epox.Scheduler.Model
import Mathlib.Tactic.SplitIfs

/-!
# Invariants of the scheduler

Each section has one invariant of the runs of `Sched`.  The induction over the run is always
`Reached.invariant`; the work is in the moves, and there only in those that touch the data the
invariant speaks of.
-/

namespace Epox

namespace Sched

variable {σ σ' : Sched}

/-! ## Which tasks exist -/

/-- The front of the run queues is in one of them. -/
lemma home_of_front {t : TaskId} (h : σ.front = some t) :
    ∃ p, σ.queues.home t = some (σ.cur, runq p) := by
  simp only [front, Option.or_eq_some_iff] at h
  rcases h with h | ⟨-, h | ⟨-, h⟩⟩
  · exact ⟨.high, Family.home_of_head? h⟩
  · exact ⟨.normal, Family.home_of_head? h⟩
  · exact ⟨.low, Family.home_of_head? h⟩

/-- A move creates no reference to a task that had none, other than the one it spawns. -/
lemma Step.alive (h : Step σ σ') {t : TaskId} (ht : σ'.alive t) :
    σ.alive t ∨ t = σ.nTasks ∧ σ'.nTasks = σ.nTasks + 1 := by
  cases h with
  | spawn p =>
    by_cases hn : t = σ.nTasks
    · exact .inr ⟨hn, rfl⟩
    · left
      simpa [Sched.alive, running, Family.home_push, hn] using ht
  | enqueue u halive hc | receive u r hpipe halive hc =>
    left
    by_cases hu : t = u
    · exact hu ▸ halive
    · simpa [Sched.alive, running, Family.home_push, hu] using ht
  | select u hfront hrun =>
    left
    obtain ⟨p, hp⟩ := home_of_front hfront
    by_cases hu : t = u
    · exact .inl (by simp [hu, hp])
    · simpa [Sched.alive, running, Family.home_release, hu] using ht
  | sleep u r hpolls hq =>
    left
    by_cases hu : t = u
    · exact .inr (.inr (.inl (by simp [running, hpolls, hu])))
    · simpa [Sched.alive, running, Family.home_push, hu, hpolls] using ht
  | keep u r hpolls hq | ready u r hpolls | complete u r hpolls =>
    left
    simp only [Sched.alive, running, hpolls, List.map_cons, List.mem_cons] at ht ⊢
    tauto
  | abort u halive =>
    left
    by_cases hu : t = u
    · exact hu ▸ halive
    · simpa [Sched.alive, running, Family.home_release, hu] using ht
  | discard u q hq hcur =>
    left
    by_cases hu : t = u
    · exact .inl (by simp [hu, hq])
    · simpa [Sched.alive, running, Family.home_release, hu] using ht
  | crash u =>
    left
    cases u with
    | none => exact ht
    | some u =>
      by_cases hu : t = u
      · simp only [Sched.alive, running, Option.elim, Family.home_release, hu, if_true] at ht ⊢
        tauto
      · simpa [Sched.alive, running, Family.home_release, hu] using ht
  | refs handle waking h => exact .inl (h t ht)
  | write | drain | replace | note => exact .inl ht

/-- The number of tasks never decreases. -/
lemma Step.nTasks_le (h : Step σ σ') : σ.nTasks ≤ σ'.nTasks := by
  cases h <;> simp

/-- A task to which references exist has been spawned. -/
lemma Reached.lt_of_alive (h : σ.Reached) {t : TaskId} (ht : σ.alive t) : t < σ.nTasks := by
  refine h.invariant (P := fun σ => ∀ t, σ.alive t → t < σ.nTasks) ?_ ?_ t ht
  · intro t ht
    simp [Sched.alive, initial, running] at ht
  · intro σ σ' _ ih hs t ht
    have hle := hs.nTasks_le
    rcases hs.alive ht with ht | ⟨rfl, hn⟩
    · exact (ih t ht).trans_le hle
    · exact hn ▸ Nat.lt_succ_self σ.nTasks

/-- A task whose poll is in progress has been spawned. -/
lemma Reached.lt_of_running (h : σ.Reached) {t : TaskId} (ht : t ∈ σ.running) : t < σ.nTasks :=
  h.lt_of_alive (.inr (.inr (.inl ht)))

/-- The queue that holds a task is one of an executor that is not older than that of the task: a run
queue of its priority or the sleep queue. -/
def Placed (σ : Sched) : Prop :=
  ∀ t, σ.exec t ≤ σ.cur ∧ ∀ x q, σ.queues.home t = some (x, q) →
    σ.exec t ≤ x ∧ x ≤ σ.cur ∧ (q = .sleepq ∨ q = runq (σ.priority t))

/-- Putting a task into a queue of the current executor keeps the tasks placed. -/
lemma Placed.push (h : σ.Placed) {u : TaskId} {q : QueueName}
    (hq : q = .sleepq ∨ q = runq (σ.priority u)) :
    ({ σ with queues := σ.queues.push (σ.cur, q) u } : Sched).Placed := by
  intro t
  refine ⟨(h t).1, fun x r hx => ?_⟩
  simp only [Family.home_push] at hx
  split_ifs at hx with hu
  · obtain ⟨rfl, rfl⟩ : σ.cur = x ∧ q = r := by simpa using hx
    exact ⟨(h t).1, le_rfl, hu ▸ hq⟩
  · exact (h t).2 x r hx

/-- Taking a task out of its queue keeps the tasks placed. -/
lemma Placed.release (h : σ.Placed) (u : TaskId) :
    ({ σ with queues := σ.queues.release u } : Sched).Placed := by
  intro t
  refine ⟨(h t).1, fun x r hx => ?_⟩
  simp only [Family.home_release] at hx
  split_ifs at hx with hu
  exact (h t).2 x r hx

/-- Every move keeps the tasks placed. -/
lemma Step.placed (h : Step σ σ') (hp : σ.Placed) : σ'.Placed := by
  cases h with
  | spawn p =>
    intro t
    simp only [Family.home_push, Function.update_apply]
    split_ifs with ht
    · refine ⟨le_rfl, fun x q hx => ?_⟩
      obtain ⟨rfl, rfl⟩ : σ.cur = x ∧ runq p = q := by simpa using hx
      exact ⟨le_rfl, le_rfl, .inr rfl⟩
    · exact hp t
  | enqueue t halive hc | receive t r hpipe halive hc => exact hp.push (.inr rfl)
  | sleep t r hpolls hq => exact hp.push (.inl rfl)
  | select t hfront hrun | abort t halive | discard t q hq hcur => exact hp.release t
  | crash t =>
    cases t with
    | none => exact hp
    | some t => exact hp.release t
  | replace =>
    intro t
    refine ⟨(hp t).1.trans (Nat.le_succ _), fun x q hx => ?_⟩
    obtain ⟨h₁, h₂, h₃⟩ := (hp t).2 x q hx
    exact ⟨h₁, h₂.trans (Nat.le_succ _), h₃⟩
  | keep | ready | complete | write | drain | refs | note => exact hp

/-- In every run the tasks are placed. -/
lemma Reached.placed (h : σ.Reached) : σ.Placed :=
  h.invariant (by simp [Placed, initial]) fun _ _ _ hp hs => hs.placed hp

/-- Tasks enter the queues of the current executor only. -/
lemma Step.home_of_lt (h : Step σ σ') {t : TaskId} {x : ExecId} {q : QueueName} (hx : x < σ.cur)
    (ht : σ'.queues.home t = some (x, q)) : σ.queues.home t = some (x, q) := by
  have hpush : ∀ (F : Family QueueId TaskId) r u, (F.push (σ.cur, r) u).home t = some (x, q) →
      F.home t = some (x, q) := by
    intro F r u hu
    rw [Family.home_push] at hu
    split_ifs at hu
    · exact absurd (congrArg Prod.fst (Option.some.inj hu)) hx.ne'
    · exact hu
  have hrelease : ∀ (F : Family QueueId TaskId) u, (F.release u).home t = some (x, q) →
      F.home t = some (x, q) := by
    intro F u hu
    rw [Family.home_release] at hu
    split_ifs at hu
    exact hu
  cases h with
  | spawn | enqueue | sleep | receive => exact hpush _ _ _ ht
  | select | abort | discard => exact hrelease _ _ ht
  | crash u =>
    cases u with
    | none => exact ht
    | some u => exact hrelease _ u ht
  | _ => exact ht

/-- No executor comes back. -/
lemma Step.cur_le (h : Step σ σ') : σ.cur ≤ σ'.cur := by
  cases h with
  | replace => exact Nat.le_succ _
  | _ => exact le_rfl

/-- Tasks enter the queues of the current executor only, over any number of moves. -/
lemma home_of_lt_of_reaches (h : Relation.ReflTransGen Step σ σ') {t : TaskId} {x : ExecId}
    {q : QueueName} (hx : x < σ.cur) :
    σ.cur ≤ σ'.cur ∧ (σ'.queues.home t = some (x, q) → σ.queues.home t = some (x, q)) := by
  induction h with
  | refl => exact ⟨le_rfl, id⟩
  | tail _ hs ih =>
    exact ⟨ih.1.trans hs.cur_le, fun ht => ih.2 (hs.home_of_lt (hx.trans_le ih.1) ht)⟩

/-! ## No task is lost -/

/-- Every task of the current executor that has not completed, has not been aborted and is not being
polled is in a queue. -/
def Kept (σ : Sched) : Prop :=
  σ.crashed = false → ∀ t < σ.nTasks, σ.exec t = σ.cur → σ.completed t = false →
    .aborted t ∉ σ.log → t ∉ σ.running → σ.queues.home t ≠ none

/-- Every move keeps the tasks. -/
lemma Step.kept (h : Step σ σ') (hp : σ.Placed) (hk : σ.Kept) : σ'.Kept := by
  intro hcr t hlt hexec hc hab hrun
  cases h with
  | spawn p =>
    simp only [Family.home_push]
    split_ifs with ht
    · simp
    · simp only [Function.update_of_ne ht] at hexec hc
      have hlt' : t < σ.nTasks := lt_of_le_of_ne (Nat.le_of_lt_succ hlt) ht
      exact hk hcr t hlt' hexec hc (by simpa using hab) hrun
  | enqueue u halive hcu =>
    simp only [Family.home_push]
    split_ifs with ht
    · simp
    · exact hk hcr t hlt hexec hc (by simpa using hab) hrun
  | receive u r hpipe halive hcu =>
    simp only [Family.home_push]
    split_ifs with ht
    · simp
    · exact hk hcr t hlt hexec hc (by simpa using hab) hrun
  | select u hfront hu =>
    obtain ⟨htu, hrun⟩ : t ≠ u ∧ t ∉ σ.running := by simpa [running] using hrun
    simpa [Family.home_release, htu] using hk hcr t hlt hexec hc (by simpa using hab) hrun
  | sleep u r hpolls hq =>
    simp only [Family.home_push]
    split_ifs with ht
    · simp
    · refine hk hcr t hlt hexec hc hab ?_
      simp only [running, hpolls, List.map_cons, List.mem_cons, not_or]
      exact ⟨ht, hrun⟩
  | keep u r hpolls hq =>
    by_cases ht : t = u
    · exact ht ▸ hq
    · refine hk hcr t hlt hexec hc hab ?_
      simp only [running, hpolls, List.map_cons, List.mem_cons, not_or]
      exact ⟨ht, hrun⟩
  | ready u r hpolls =>
    refine hk hcr t hlt hexec hc (by simpa using hab) ?_
    simpa [running, hpolls] using hrun
  | complete u r hpolls =>
    have htu : t ≠ u := by
      rintro rfl
      simp at hc
    refine hk hcr t hlt hexec (by simpa [htu] using hc) (by simpa using hab) ?_
    simp only [running, hpolls, List.map_cons, List.mem_cons, not_or]
    exact ⟨htu, hrun⟩
  | abort u halive =>
    obtain ⟨htu, hab⟩ : t ≠ u ∧ .aborted t ∉ σ.log := by simpa using hab
    simpa [Family.home_release, htu] using hk hcr t hlt hexec hc hab hrun
  | discard u q hq hcur =>
    have htu : t ≠ u := by
      rintro rfl
      obtain ⟨h₁, h₂, -⟩ := (hp t).2 q.1 q.2 hq
      exact hcur (le_antisymm h₂ (hexec ▸ h₁))
    simpa [Family.home_release, htu] using hk hcr t hlt hexec hc (by simpa using hab) hrun
  | replace => exact absurd hexec ((hp t).1.trans_lt (Nat.lt_succ_self _)).ne
  | note e he hwoken =>
    exact hk hcr t hlt hexec hc (fun hm => hab (List.mem_cons_of_mem _ hm)) hrun
  | write | drain | refs => exact hk hcr t hlt hexec hc hab hrun
  | crash u => simp at hcr

/-- In every run no task is lost. -/
lemma Reached.kept (h : σ.Reached) : σ.Kept :=
  h.invariant (by simp [Kept, initial]) fun _ _ hr hk hs => hs.kept hr.placed hk

/-! ## Polls in progress -/

/-- No task is polled twice at a time. -/
lemma Reached.nodup_running (h : σ.Reached) : σ.running.Nodup := by
  refine h.invariant (P := fun σ => σ.running.Nodup) (by simp [initial, running]) ?_
  intro σ σ' _ ih hs
  cases hs with
  | select t hfront hrun => exact List.nodup_cons.mpr ⟨hrun, ih⟩
  | sleep t r hpolls hq | keep t r hpolls hq | complete t r hpolls =>
    simp only [running, hpolls, List.map_cons, List.nodup_cons] at ih
    exact ih.2
  | ready t r hpolls => simpa [running, hpolls] using ih
  | _ => exact ih

/-- A task that is queued while it is polled has been enqueued during that poll. -/
def Marked (σ : Sched) : Prop :=
  ∀ t ∈ σ.running, σ.queues.home t ≠ none → EnqueuedNow t σ.log

/-- Every move keeps the queued tasks marked. -/
lemma Step.marked (h : Step σ σ') (hr : σ.Reached) (hm : σ.Marked) : σ'.Marked := by
  intro t ht hq
  cases h with
  | spawn p =>
    have htn : t ≠ σ.nTasks := (hr.lt_of_running ht).ne
    have hq' : σ.queues.home t ≠ none := by simpa [Family.home_push, htn] using hq
    simpa [htn.symm] using hm t ht hq'
  | enqueue u halive hc | receive u r hpipe halive hc =>
    by_cases hu : t = u
    · simp [hu]
    · have hq' : σ.queues.home t ≠ none := by simpa [Family.home_push, hu] using hq
      simpa [Ne.symm hu] using hm t ht hq'
  | select u hfront hrun =>
    have hu : t ≠ u := by
      rintro rfl
      simp at hq
    have hq' : σ.queues.home t ≠ none := by simpa [Family.home_release, hu] using hq
    have ht' : t ∈ σ.running := by simpa [running, hu] using ht
    simpa [hu.symm] using hm t ht' hq'
  | sleep u r hpolls hn | keep u r hpolls hn | complete u r hpolls =>
    have hnodup := hr.nodup_running
    simp only [running, hpolls, List.map_cons, List.nodup_cons] at hnodup
    have hu : t ≠ u := fun hu => hnodup.1 (hu ▸ ht)
    have ht' : t ∈ σ.running := by
      rw [running, hpolls]
      exact List.mem_cons_of_mem u ht
    simpa using hm t ht' (by simpa [Family.home_push, hu] using hq)
  | ready u r hpolls =>
    have ht' : t ∈ σ.running := by simpa [running, hpolls] using ht
    simpa using hm t ht' hq
  | abort u halive =>
    have hu : t ≠ u := by
      rintro rfl
      simp at hq
    simpa [hu.symm] using hm t ht (by simpa [Family.home_release, hu] using hq)
  | discard u q hn hcur =>
    have hu : t ≠ u := by
      rintro rfl
      simp at hq
    simpa [hu.symm] using hm t ht (by simpa [Family.home_release, hu] using hq)
  | note e he hwoken =>
    have h := hm t ht hq
    cases e <;> simp_all [Event.isNote]
  | crash u =>
    refine hm t ht ?_
    cases u with
    | none => exact hq
    | some u =>
      simp only [Option.elim, Family.home_release] at hq
      split_ifs at hq
      · exact absurd rfl hq
      · exact hq
  | write | drain | refs | replace => exact hm t ht hq

/-- In every run the queued tasks are marked. -/
lemma Reached.marked (h : σ.Reached) : σ.Marked :=
  h.invariant (by simp [Marked, initial, running]) fun _ _ hr hm hs => hs.marked hr hm

/-- A task that has been enqueued and not taken out since is in a queue. -/
def Queued (σ : Sched) : Prop :=
  σ.crashed = false → ∀ t, EnqueuedNow t σ.log → σ.queues.home t ≠ none

/-- Every move keeps the enqueued tasks queued. -/
lemma Step.queued (h : Step σ σ') (hk : σ.Queued) : σ'.Queued := by
  intro hcr t ht
  cases h with
  | spawn p =>
    simp only [Family.home_push]
    split_ifs with hu
    · simp
    · exact hk hcr t (by simpa [Ne.symm hu] using ht)
  | enqueue u halive hc | receive u r hpipe halive hc =>
    simp only [Family.home_push]
    split_ifs with hu
    · simp
    · exact hk hcr t (by simpa [Ne.symm hu] using ht)
  | select u hfront hrun =>
    obtain ⟨hu, ht⟩ : u ≠ t ∧ EnqueuedNow t σ.log := by simpa using ht
    simpa [Family.home_release, hu.symm] using hk hcr t ht
  | abort u halive =>
    obtain ⟨hu, ht⟩ : u ≠ t ∧ EnqueuedNow t σ.log := by simpa using ht
    simpa [Family.home_release, hu.symm] using hk hcr t ht
  | discard u q hn hcur =>
    obtain ⟨hu, ht⟩ : u ≠ t ∧ EnqueuedNow t σ.log := by simpa using ht
    simpa [Family.home_release, hu.symm] using hk hcr t ht
  | sleep u r hpolls hq =>
    simp only [Family.home_push]
    split_ifs
    · simp
    · exact hk hcr t ht
  | ready u r hpolls => exact hk hcr t (by simpa using ht)
  | complete u r hpolls => exact hk hcr t (by simpa using ht)
  | note e he hwoken =>
    refine hk hcr t ?_
    cases e <;> simp_all [Event.isNote]
  | keep | write | drain | refs | replace => exact hk hcr t ht
  | crash u => simp at hcr

/-- In every run the enqueued tasks are queued. -/
lemma Reached.queued (h : σ.Reached) : σ.Queued :=
  h.invariant (by simp [Queued, initial, EnqueuedNow]) fun _ _ _ hk hs => hs.queued hk

/-! ## Completed tasks -/

/-- Only tasks that were spawned have returned `Poll::Ready`. -/
lemma Reached.lt_of_ready (h : σ.Reached) {t : TaskId} (ht : .ready t ∈ σ.log) : t < σ.nTasks := by
  refine h.invariant (P := fun σ => ∀ t, .ready t ∈ σ.log → t < σ.nTasks) (by simp [initial]) ?_ t ht
  intro σ σ' hr ih hs t ht
  refine lt_of_lt_of_le ?_ hs.nTasks_le
  cases hs with
  | ready u r hpolls =>
    rcases List.mem_cons.mp ht with ht | ht
    · obtain rfl : t = u := by simpa using ht
      exact hr.lt_of_running (by simp [running, hpolls])
    · exact ih t ht
  | note e he hwoken =>
    rcases List.mem_cons.mp ht with rfl | ht
    · simp [Event.isNote] at he
    · exact ih t ht
  | _ => exact ih t (by simpa using ht)

/-- A task that has completed, or is about to, has returned `Poll::Ready`. -/
lemma Reached.ready_of_completed (h : σ.Reached) {t : TaskId}
    (ht : σ.completed t = true ∨ (t, true) ∈ σ.polls) : .ready t ∈ σ.log := by
  refine h.invariant
    (P := fun σ => ∀ t, σ.completed t = true ∨ (t, true) ∈ σ.polls → .ready t ∈ σ.log) ?_ ?_ t ht
  · simp [initial]
  · intro σ σ' _ ih hs t ht
    cases hs with
    | spawn p =>
      by_cases hn : t = σ.nTasks
      · simpa using ih t (.inr (by simpa [hn] using ht))
      · simpa using ih t (by simpa [hn] using ht)
    | select u hfront hrun => simpa using ih t (by simpa using ht)
    | sleep u r hpolls hq => exact ih t (by simpa [hpolls] using ht)
    | keep u r hpolls hq => exact ih t (by simpa [hpolls] using ht)
    | ready u r hpolls =>
      by_cases hu : t = u
      · simp [hu]
      · simpa [hu] using ih t (by simpa [hpolls, hu] using ht)
    | complete u r hpolls =>
      by_cases hu : t = u
      · simpa using ih t (.inr (by simp [hpolls, hu]))
      · simpa using ih t (by simpa [hpolls, hu] using ht)
    | note e he hwoken => exact List.mem_cons_of_mem e (ih t ht)
    | _ => simpa using ih t ht

/-- When no task was in a run queue as it completed: completed tasks are in no queue, tasks being polled
have not completed, and a task whose future has returned `Poll::Ready` has completed or is about to. -/
structure Finished (σ : Sched) : Prop where
  home : ∀ t, σ.completed t = true → σ.queues.home t = none
  running : ∀ t ∈ σ.running, σ.completed t = false
  ready : ∀ t, .ready t ∈ σ.log → σ.completed t = true ∨ (t, true) ∈ σ.polls
  polled : ∀ t, ¬ PolledAfterReady t σ.log

/-- What `Finished` says about one task. -/
structure FinishedTask (σ : Sched) (t : TaskId) : Prop where
  home : σ.completed t = true → σ.queues.home t = none
  running : t ∈ σ.running → σ.completed t = false
  ready : .ready t ∈ σ.log → σ.completed t = true ∨ (t, true) ∈ σ.polls
  polled : ¬ PolledAfterReady t σ.log

/-- Every move keeps a task finished, if it was in no run queue as it completed. -/
lemma Step.finishedTask {t : TaskId} (h : Step σ σ') (hr : σ.Reached) (hquiet : QuietCompletion t σ'.log)
    (hf : σ.FinishedTask t) : σ'.FinishedTask t := by
  cases h with
  | spawn p =>
    refine ⟨fun ht => ?_, fun ht => ?_, fun ht => ?_, by simpa using hf.polled⟩
    · simp only [Function.update_apply, Family.home_push] at ht ⊢
      split_ifs at ht ⊢
      exact hf.home ht
    · have htn : t ≠ σ.nTasks := (hr.lt_of_running ht).ne
      simpa [htn] using hf.running ht
    · have ht' : .ready t ∈ σ.log := by simpa using ht
      have htn : t ≠ σ.nTasks := (hr.lt_of_ready ht').ne
      simpa [htn] using hf.ready ht'
  | enqueue u halive hc | receive u r hpipe halive hc =>
    refine ⟨fun ht => ?_, hf.running, by simpa using hf.ready, by simpa using hf.polled⟩
    have hu : t ≠ u := by
      rintro rfl
      simp_all
    simpa [Family.home_push, hu] using hf.home ht
  | select u hfront hrun =>
    obtain ⟨p, hp⟩ := home_of_front hfront
    have hcu : ∀ h : u = t, ¬ σ.completed u = true := by
      rintro rfl hc
      simp [hf.home hc] at hp
    refine ⟨fun ht => ?_, fun ht => ?_, fun ht => ?_, fun ht => ?_⟩
    · simp [Family.home_release, hf.home ht]
    · rcases List.mem_cons.mp ht with hu | ht
      · simpa [hu] using hcu hu.symm
      · exact hf.running ht
    · exact (hf.ready (by simpa using ht)).imp_right (List.mem_cons_of_mem _)
    · rw [polledAfterReady_cons] at ht
      rcases ht with ⟨hu, ht⟩ | ht
      · obtain rfl : u = t := by simpa using hu
        rcases hf.ready ht with hc | hm
        · exact hcu rfl hc
        · exact hrun (List.mem_map_of_mem hm)
      · exact hf.polled ht
  | sleep u r hpolls hq =>
    refine ⟨fun ht => ?_, fun ht => ?_, fun ht => ?_, hf.polled⟩
    · have hu : t ≠ u := by
        rintro rfl
        exact absurd ht (by simp [hf.running (by simp [running, hpolls])])
      simpa [Family.home_push, hu] using hf.home ht
    · exact hf.running (by rw [running, hpolls]; exact List.mem_cons_of_mem u ht)
    · simpa [hpolls] using hf.ready ht
  | keep u r hpolls hq =>
    refine ⟨hf.home, fun ht => ?_, fun ht => ?_, hf.polled⟩
    · exact hf.running (by rw [running, hpolls]; exact List.mem_cons_of_mem u ht)
    · simpa [hpolls] using hf.ready ht
  | ready u r hpolls =>
    refine ⟨hf.home, fun ht => ?_, fun ht => ?_, by simpa using hf.polled⟩
    · exact hf.running (by simpa [running, hpolls] using ht)
    · by_cases hu : t = u
      · simp [hu]
      · simpa [hpolls, hu] using hf.ready (by simpa [hu] using ht)
  | complete u r hpolls =>
    have hnodup := hr.nodup_running
    simp only [running, hpolls, List.map_cons, List.nodup_cons] at hnodup
    refine ⟨fun ht => ?_, fun ht => ?_, fun ht => ?_, by simpa using hf.polled⟩
    · by_cases hu : t = u
      · subst hu
        have hu : t ∈ σ.running := by simp [running, hpolls]
        exact not_not.mp fun hq => hquiet.1 rfl (hr.marked t hu hq)
      · exact hf.home (by simpa [hu] using ht)
    · have hu : t ≠ u := fun hu => hnodup.1 (hu ▸ ht)
      have ht' : t ∈ σ.running := by
        rw [running, hpolls]
        exact List.mem_cons_of_mem u ht
      simpa [hu] using hf.running ht'
    · have h := hf.ready (by simpa using ht)
      by_cases hu : t = u
      · simp [hu]
      · simpa [hpolls, hu] using h
  | abort u halive =>
    refine ⟨fun ht => ?_, hf.running, by simpa using hf.ready, by simpa using hf.polled⟩
    simp [Family.home_release, hf.home ht]
  | discard u q hq hcur =>
    refine ⟨fun ht => ?_, hf.running, by simpa using hf.ready, by simpa using hf.polled⟩
    simp [Family.home_release, hf.home ht]
  | note e he hwoken =>
    refine ⟨hf.home, hf.running, fun ht => ?_, fun ht => ?_⟩
    · rcases List.mem_cons.mp ht with rfl | ht
      · simp [Event.isNote] at he
      · exact hf.ready ht
    · rcases polledAfterReady_cons.mp ht with ⟨rfl, -⟩ | ht
      · simp [Event.isNote] at he
      · exact hf.polled ht
  | crash u =>
    refine ⟨fun ht => ?_, hf.running, hf.ready, hf.polled⟩
    cases u with
    | none => exact hf.home ht
    | some u => simp [Family.home_release, hf.home ht]
  | write | drain | refs | replace => exact ⟨hf.home, hf.running, hf.ready, hf.polled⟩

/-- A history is a suffix of every later one. -/
lemma Step.quiet {t : TaskId} (h : Step σ σ') (hquiet : QuietCompletion t σ'.log) :
    QuietCompletion t σ.log := by
  cases h with
  | spawn => exact hquiet.2.2
  | enqueue | select | ready | complete | abort | discard | receive | note => exact hquiet.2
  | _ => exact hquiet

/-- A task is finished in every run in which it was in no run queue as it completed. -/
theorem Reached.finishedTask {t : TaskId} (h : σ.Reached) (hquiet : QuietCompletion t σ.log) :
    σ.FinishedTask t := by
  refine h.invariant (P := fun σ => QuietCompletion t σ.log → σ.FinishedTask t) (fun _ => ?_) ?_ hquiet
  · constructor <;> simp [initial, running, PolledAfterReady]
  · intro σ σ' hr ih hs hquiet
    exact hs.finishedTask hr hquiet (ih (hs.quiet hquiet))

/-- In every run in which no task was in a run queue as it completed, the completed tasks are
finished. -/
theorem Reached.finished (h : σ.Reached) (hquiet : QuietCompletions σ.log) : σ.Finished where
  home t := (h.finishedTask (quietCompletions_iff.mp hquiet t)).home
  running t := (h.finishedTask (quietCompletions_iff.mp hquiet t)).running
  ready t := (h.finishedTask (quietCompletions_iff.mp hquiet t)).ready
  polled t := (h.finishedTask (quietCompletions_iff.mp hquiet t)).polled

/-! ## Aborted tasks -/

/-- A task that has been aborted and not enqueued since is in no run queue, and has not been polled
since. -/
structure Stopped (σ : Sched) (t : TaskId) : Prop where
  home : .aborted t ∈ σ.log → σ.queues.home t = none ∨ ∃ x, σ.queues.home t = some (x, .sleepq)
  polled : ¬ PolledAfterAbort t σ.log

/-- Every move keeps an aborted task stopped, if it does not enqueue it. -/
lemma Step.stopped {t : TaskId} (h : Step σ σ') (hne : ¬ EnqueuedAfterAbort t σ'.log)
    (hs : σ.Stopped t) : σ'.Stopped t := by
  cases h with
  | spawn p =>
    refine ⟨fun ht => ?_, by simpa using hs.polled⟩
    have ht' : .aborted t ∈ σ.log := by simpa using ht
    have hu : t ≠ σ.nTasks := by
      rintro rfl
      simp [ht'] at hne
    simpa [Family.home_push, hu] using hs.home ht'
  | enqueue u halive hc | receive u r hpipe halive hc =>
    refine ⟨fun ht => ?_, by simpa using hs.polled⟩
    have ht' : .aborted t ∈ σ.log := by simpa using ht
    have hu : t ≠ u := by
      rintro rfl
      simp [ht'] at hne
    simpa [Family.home_push, hu] using hs.home ht'
  | select u hfront hrun =>
    refine ⟨fun ht => ?_, fun ht => ?_⟩
    · simp only [Family.home_release]
      split_ifs
      · exact .inl rfl
      · exact hs.home (by simpa using ht)
    · rcases polledAfterAbort_cons.mp ht with ⟨hu, ht⟩ | ht
      · obtain rfl : u = t := by simpa using hu
        obtain ⟨p, hp⟩ := home_of_front hfront
        simpa [hp] using hs.home ht
      · exact hs.polled ht
  | sleep u r hpolls hq =>
    refine ⟨fun ht => ?_, hs.polled⟩
    simp only [Family.home_push]
    split_ifs
    · exact .inr ⟨σ.cur, rfl⟩
    · exact hs.home ht
  | abort u halive =>
    refine ⟨fun ht => ?_, by simpa using hs.polled⟩
    simp only [Family.home_release]
    split_ifs with hu
    · exact .inl rfl
    · exact hs.home (by simpa [hu] using ht)
  | discard u q hq hcur =>
    refine ⟨fun ht => ?_, by simpa using hs.polled⟩
    simp only [Family.home_release]
    split_ifs
    · exact .inl rfl
    · exact hs.home (by simpa using ht)
  | ready u r hpolls => exact ⟨by simpa using hs.home, by simpa using hs.polled⟩
  | complete u r hpolls => exact ⟨by simpa using hs.home, by simpa using hs.polled⟩
  | note e he hwoken =>
    refine ⟨fun ht => ?_, fun ht => ?_⟩
    · rcases List.mem_cons.mp ht with rfl | ht
      · simp [Event.isNote] at he
      · exact hs.home ht
    · rcases polledAfterAbort_cons.mp ht with ⟨rfl, -⟩ | ht
      · simp [Event.isNote] at he
      · exact hs.polled ht
  | crash u =>
    refine ⟨fun ht => ?_, hs.polled⟩
    cases u with
    | none => exact hs.home ht
    | some u =>
      simp only [Option.elim, Family.home_release]
      split_ifs
      · exact .inl rfl
      · exact hs.home ht
  | keep | write | drain | refs | replace => exact ⟨hs.home, hs.polled⟩

/-- A task that was enqueued after its abort stays so. -/
lemma Step.enqueuedAfterAbort {t : TaskId} (h : Step σ σ') (ht : EnqueuedAfterAbort t σ.log) :
    EnqueuedAfterAbort t σ'.log := by
  cases h <;> simp [ht]

/-- In every run an aborted task that is not enqueued again stays stopped. -/
theorem Reached.stopped (h : σ.Reached) {t : TaskId} (hne : ¬ EnqueuedAfterAbort t σ.log) :
    σ.Stopped t := by
  refine h.invariant (P := fun σ => ¬ EnqueuedAfterAbort t σ.log → σ.Stopped t) (fun _ => ?_) ?_ hne
  · constructor <;> simp [initial, PolledAfterAbort]
  · intro σ σ' _ ih hs hne
    exact hs.stopped hne (ih fun ht => hne (hs.enqueuedAfterAbort ht))

/-! ## Wakes -/

/-- A task that was woken and has not been polled since is runnable, or will be when the pipe is
read. -/
def Delivered (σ : Sched) : Prop :=
  σ.crashed = false → ∀ t, σ.exec t = σ.cur → WakePending t σ.log → σ.alive t →
    σ.completed t = false → σ.runnable t ∨ some t ∈ σ.pipe

/-- Every move keeps the wakes delivered. -/
lemma Step.delivered (h : Step σ σ') (hp : σ.Placed) (hd : σ.Delivered) : σ'.Delivered := by
  intro hcr t hexec hw halive hc
  have halive' := h.alive halive
  cases h with
  | spawn p =>
    by_cases ht : t = σ.nTasks
    · left
      simp [runnable, ht]
    · have hx : σ.exec t = σ.cur := by simpa [ht] using hexec
      have hct : σ.completed t = false := by simpa [ht] using hc
      have h := hd hcr t hx (by simpa using hw) (by simpa [ht] using halive') hct
      simpa [runnable, Family.home_push, ht] using h
  | enqueue u hau hcu =>
    by_cases ht : t = u
    · left
      simp [runnable, ht]
    · have h := hd hcr t hexec (by simpa using hw) (by simpa using halive') hc
      simpa [runnable, Family.home_push, ht] using h
  | receive u r hpipe hau hcu =>
    by_cases ht : t = u
    · left
      simp [runnable, ht]
    · have h := hd hcr t hexec (by simpa using hw) (by simpa using halive') hc
      simpa [runnable, Family.home_push, ht, hpipe] using h
  | select u hfront hrun =>
    obtain ⟨hu, hw⟩ : u ≠ t ∧ WakePending t σ.log := by simpa using hw
    have h := hd hcr t hexec hw (by simpa using halive') hc
    simpa [runnable, Family.home_release, hu.symm] using h
  | sleep u r hpolls hq =>
    have h := hd hcr t hexec hw (by simpa using halive') hc
    by_cases ht : t = u
    · right
      simpa [runnable, ht, hq] using h
    · simpa [runnable, Family.home_push, ht] using h
  | ready u r hpolls => exact hd hcr t hexec (by simpa using hw) (by simpa using halive') hc
  | complete u r hpolls =>
    have hu : t ≠ u := by
      rintro rfl
      simp at hc
    have hw' : WakePending t σ.log := by
      obtain ⟨-, hw⟩ : u ≠ t ∧ WakePending t σ.log := by simpa using hw
      exact hw
    exact hd hcr t hexec hw' (by simpa using halive') (by simpa [hu] using hc)
  | abort u hau =>
    obtain ⟨hu, hw⟩ : u ≠ t ∧ WakePending t σ.log := by simpa using hw
    have h := hd hcr t hexec hw (by simpa using halive') hc
    simpa [runnable, Family.home_release, hu.symm] using h
  | discard u q hq hcur =>
    have hu : t ≠ u := by
      rintro rfl
      obtain ⟨h₁, h₂, -⟩ := (hp t).2 q.1 q.2 hq
      exact hcur (le_antisymm h₂ (hexec ▸ h₁))
    have h := hd hcr t hexec (by simpa using hw) (by simpa using halive') hc
    simpa [runnable, Family.home_release, hu] using h
  | write p =>
    exact (hd hcr t hexec hw (by simpa using halive') hc).imp_right (List.mem_append_left [p])
  | drain p r hpipe hdrop =>
    have h := hd hcr t hexec hw (by simpa using halive') hc
    rw [hpipe, List.mem_cons] at h
    rcases h with h | h | h
    · exact .inl h
    · rcases hdrop t h.symm with hn | hn
      · exact absurd (by simpa using halive') hn
      · simp [hn] at hc
    · exact .inr h
  | replace => exact absurd hexec ((hp t).1.trans_lt (Nat.lt_succ_self _)).ne
  | note e he hwoken =>
    by_cases het : e = .woken t
    · exact hwoken t het hexec (by simpa using halive') hc
    · refine hd hcr t hexec ?_ (by simpa using halive') hc
      simp only [wakePending_cons, het, false_or] at hw
      exact hw.2
  | crash u => simp at hcr
  | keep | refs => exact hd hcr t hexec hw (by simpa using halive') hc

/-- In every run the wakes are delivered. -/
theorem Reached.delivered (h : σ.Reached) : σ.Delivered :=
  h.invariant (by simp [Delivered, initial, WakePending]) fun _ _ hr hd hs => hs.delivered hr.placed hd

end Sched

end Epox

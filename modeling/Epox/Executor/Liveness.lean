import Epox.Executor.Queueing
import Epox.Executor.Teardown
import Epox.Executor.Turns

/-!
# A woken task is polled

A wake makes its task runnable, or writes its pointer to the pipe.  The pipe is read in order, one pointer
for every time when `epoll_wait` reports it, and a loop of the executor that comes back to taking the next
runnable task has called `epoll_wait` in between (`waits_recur`).  So the pointer is read, the task becomes
runnable, and its turn comes: no wake is lost in any endless run (`woken_task_polled`).
-/

namespace Epox

/-! ## The order of the pipe -/

namespace Sched

variable {σ σ' : Sched} {t : TaskId} {c : ℕ}

/-- The task is runnable, or its pointer is among the first `c` of the pipe. -/
def Within (σ : Sched) (t : TaskId) (c : ℕ) : Prop :=
  σ.runnable t ∨ some t ∈ σ.pipe.take c

/-- Behind the front, the pointer has come closer. -/
lemma mem_take_of_cons {p : Option TaskId} {r : List (Option TaskId)} (h : some t ∈ (p :: r).take c) :
    p = some t ∨ some t ∈ r.take (c - 1) := by
  cases c with
  | zero => exact absurd h List.not_mem_nil
  | succ c =>
    rw [List.take_succ_cons, List.mem_cons] at h
    exact h.imp_left Eq.symm

/-- Tasks do not cease to be completed. -/
lemma Step.completed_of_lt (h : Step σ σ') (ht : t < σ.nTasks) (hc : σ'.completed t = false) :
    σ.completed t = false := by
  cases h with
  | spawn p => simpa [ht.ne] using hc
  | complete u r hpolls =>
    have hu : t ≠ u := by
      rintro rfl
      simp at hc
    simpa [hu] using hc
  | _ => exact hc

/-- A move keeps a task runnable, or its pointer in its place. -/
lemma Step.within {l : List Event} (h : Step σ σ') (hcr : σ'.crashed = false) (hl : σ.Onward l σ')
    (ht : t < σ.nTasks) (hw : σ.Within t c) (hcur : σ'.cur = σ.cur) (hpolled : .polled t ∉ l)
    (haborted : .aborted t ∉ l) (halive : σ'.alive t) (hc : σ'.completed t = false) : σ'.Within t c := by
  rcases hw with hr | hm
  · exact .inl (hl.runnable t ht hr hcur hpolled haborted)
  -- A pointer behind the one that is read is still within reach.
  have hsooner : ∀ r : List (Option TaskId), some t ∈ r.take (c - 1) → some t ∈ r.take c := fun r hr =>
    (List.take_subset_take_left r (Nat.sub_le c 1)) hr
  cases h with
  | write p =>
    refine .inr ?_
    rw [List.take_append]
    exact List.mem_append_left _ hm
  | drain p r hpipe hp =>
    rw [hpipe] at hm
    rcases mem_take_of_cons hm with rfl | hm
    · rcases hp t rfl with hn | hn
      · exact absurd halive hn
      · cases hn.symm.trans hc
    · exact .inr (hsooner r hm)
  | receive u r hpipe halive hc =>
    rw [hpipe] at hm
    rcases mem_take_of_cons hm with hu | hm
    · obtain rfl := Option.some.inj hu
      exact .inl (by simp [runnable])
    · exact .inr (hsooner r hm)
  | replace => simp at hcur
  | crash => simp at hcr
  | _ => exact .inr hm

/-- Any number of moves keep a task runnable, or its pointer in its place. -/
lemma within_of_reaches (h : Relation.ReflTransGen Step σ σ') (hcr : σ'.crashed = false) :
    ∃ l, σ.Onward l σ' ∧ ∀ t < σ.nTasks, σ'.cur = σ.cur → .polled t ∉ l → .aborted t ∉ l → σ'.alive t →
      σ'.completed t = false → σ.alive t ∧ σ.completed t = false ∧ ∀ c, σ.Within t c → σ'.Within t c := by
  induction h with
  | refl => exact ⟨[], .refl σ, fun t _ _ _ _ halive hc => ⟨halive, hc, fun _ => id⟩⟩
  | @tail σ₁ σ₂ _ hs ih =>
    obtain ⟨l, hl, hkeep⟩ := ih (hs.crashed hcr)
    obtain ⟨l', hl'⟩ := hs.onward hcr
    refine ⟨l' ++ l, hl.trans hl', fun t ht hcur hpolled haborted halive hc => ?_⟩
    simp only [List.mem_append, not_or] at hpolled haborted
    have hcur₁ : σ₁.cur = σ.cur := le_antisymm (hcur ▸ hl'.cur) hl.cur
    have ht₁ := ht.trans_le hl.nTasks
    have hc₁ := hs.completed_of_lt ht₁ hc
    have halive₁ : σ₁.alive t := (hs.alive halive).resolve_right fun h => ht₁.ne h.1
    obtain ⟨halive₀, hc₀, hwithin⟩ := hkeep t ht hcur₁ hpolled.2 haborted.2 halive₁ hc₁
    exact ⟨halive₀, hc₀, fun c hw => hs.within hcr hl' ht₁ (hwithin c hw) (hcur.trans hcur₁.symm)
      hpolled.1 haborted.1 halive hc⟩

end Sched

namespace Thread

variable {V : Type} {s s' : Thread V} {t : TaskId} {a : Action V}

/-- A task of the current executor that has not completed and was never aborted. -/
structure Ongoing (s : Thread V) (t : TaskId) : Prop where
  lt : t < s.nTasks
  exec : (s.tasks t).exec = s.cur
  completed : (s.tasks t).hasCompleted = false
  aborted : .aborted t ∉ s.log

/-- A task stays one that has not completed and was not aborted. -/
lemma Ongoing.next (h : s.Ongoing t) (hr : Reachable step IsStart s) (hs : s.step a = some s')
    (hp : s'.panicked = none) (hcur : s'.cur = s.cur) (haborted : .aborted t ∉ s.fresh s')
    (hc : (s'.tasks t).hasCompleted = false) : s'.Ongoing t := by
  have hl := (move_of_step hs).2.later
  obtain ⟨l, honward⟩ := onward_of_step hr hs hp
  rw [fresh_of_onward honward] at haborted
  have hlog : s'.log = l ++ s.log := honward.log
  refine ⟨h.lt.trans_le hl.nTasks, by rw [hl.exec t h.lt, h.exec, hcur], hc, ?_⟩
  rw [hlog, List.mem_append, not_or]
  exact ⟨haborted, h.aborted⟩

/-- What a step does to a task that is neither polled nor aborted and does not complete. -/
lemma Ongoing.step (h : s.Ongoing t) (hr : Reachable step IsStart s) (hs : s.step a = some s')
    (hp : s'.panicked = none) (hcur : s'.cur = s.cur) (hpolled : .polled t ∉ s.fresh s')
    (haborted : .aborted t ∉ s.fresh s') (hc : (s'.tasks t).hasCompleted = false) :
    s'.Ongoing t ∧ ∀ c, s.abs.Within t c → s'.abs.Within t c := by
  have hongoing := h.next hr hs hp hcur haborted hc
  obtain ⟨hn, hm⟩ := move_of_step hs
  obtain ⟨l, hl, hkeep⟩ := Sched.within_of_reaches (hm.refines (wf_of_reachable hr)) (by simp [abs, hp])
  rw [fresh_of_onward hl] at hpolled haborted
  have halive := alive_of_kept (.next hr trivial hs) hp hongoing.lt hongoing.exec hc hongoing.aborted
  exact ⟨hongoing, (hkeep t h.lt hcur hpolled haborted (abs_alive.mpr halive) hc).2.2⟩

/-- A task that has been woken is runnable, or its pointer is in the pipe. -/
lemma Ongoing.delivered (h : s.Ongoing t) (hr : Reachable Thread.step IsStart s) (hp : s.panicked = none)
    (hw : WakePending t s.log) : s.runnable t ∨ some t ∈ s.executor.pipe := by
  have halive := alive_of_kept hr hp h.lt h.exec h.completed h.aborted
  exact (abs_reached hr).delivered (by simp [abs, hp]) t h.exec hw (abs_alive.mpr halive) h.completed

/-! ## Reading the pipe -/

/-- A step that reports the pipe reads one pointer. -/
lemma pipe_of_reported (h : s.step a = some s') (hp : s'.panicked = none) (hread : .pipe ∈ s.reported a) :
    s'.executor.pipe = s.executor.pipe.tail := by
  obtain ⟨k, hk, hmem⟩ : ∃ k, s.waitsWith a = some k ∧ .pipe ∈ k.list := by
    unfold reported at hread
    split at hread
    · rename_i k hk
      exact ⟨k, hk, hread⟩
    · exact absurd hread List.not_mem_nil
  obtain ⟨s₁, hwaited⟩ := waited_of_step h hp hk
  obtain ⟨s₂, heff, -, hexecs, -, hs'⟩ := hwaited.after
  have hmemory : ((s.yielded a).epollWait k).panicked = none ∧
      ((s.yielded a).epollWait k).memory = s₁ := by
    rcases hwaited.wait with ho | ho <;> rw [ho] <;> exact ⟨rfl, rfl⟩
  obtain ⟨hnodup, hwakeup⟩ := wakeup_of_epollWait hwaited.answers hmemory.1
  have hpipe := wakeup_pipe hnodup hwakeup
  rw [hmemory.2, if_pos hmem] at hpipe
  have hsame : s'.executor = s₁.executor := by
    rw [hs']
    exact (congrArg s₂.execs heff.steady.cur).trans (congrFun hexecs s₁.cur)
  have hyielded : (s.yielded a).executor = s.executor := by cases a <;> rfl
  rw [hsame, hpipe, hyielded]

/-- When the pipe is read, a pointer in it comes closer, or makes its task runnable. -/
lemma within_of_reported {c : ℕ} (hr : Reachable step IsStart s) (h : s.Ongoing t)
    (hs : s.step a = some s') (hp : s'.panicked = none) (hcur : s'.cur = s.cur)
    (hread : .pipe ∈ s.reported a) (hw : s.abs.Within t c) :
    s.runnable t ∨ s'.runnable t ∨ s'.abs.Within t (c - 1) := by
  refine hw.imp_right fun hm => ?_
  have hpipe := pipe_of_reported hs hp hread
  cases hlist : s.executor.pipe with
  | nil => simp [abs, hlist] at hm
  | cons p rest =>
    replace hm : some t ∈ (p :: rest).take c := hlist ▸ hm
    rw [hlist, List.tail_cons] at hpipe
    rcases Sched.mem_take_of_cons hm with rfl | hm
    · -- The pointer is read.
      have htarget : s.target .pipe = some t := by simp [target, hlist]
      have hreached : t ∈ s.reached a :=
        List.mem_append_left _ (List.mem_filterMap.mpr ⟨_, hread, htarget⟩)
      have hn := (move_of_step hs).1
      have hwakeable : s.Wakeable t := ⟨alive_of_kept hr hn h.lt h.exec h.completed h.aborted, h.completed⟩
      obtain ⟨l, hl⟩ := onward_of_step hr hs hp
      have hpriority : (s'.tasks t).priority = (s.tasks t).priority := hl.priority t h.lt
      rcases home_of_step hs hp t with hhome | ⟨hnil, -⟩
      · left
        rw [runnable, hhome, homeAfter, if_pos ⟨hreached, hwakeable⟩, hcur, hpriority]
      · exact absurd hreached (hnil ▸ List.not_mem_nil)
    · refine .inr (.inr ?_)
      change some t ∈ s'.executor.pipe.take (c - 1)
      rwa [hpipe]

/-! ## The loops -/

end Thread

/-- A frame of a loop that has taken a task, or found none, and not called `epoll_wait` since. -/
def Frame.beforeWait : Frame → Bool
  | .run .afterTask | .run .waitZero | .run .checkSleepq | .run .waitNone | .run .replace => true
  | .blockOn _ .waitZero | .blockOn _ .waitNone => true
  | _ => false

namespace Thread

variable {V : Type} {s s' : Thread V} {t : TaskId} {a : Action V} {rest : List Frame}

/-- The loop above `rest` takes the next runnable task, or finds none. -/
def TakesNext (rest : List Frame) (s : Thread V) (a : Action V) : Prop :=
  ∃ f k, s.stack = f :: rest ∧ f.loop ≠ none ∧ a = .go k

/-- The loop above `rest` has taken a task, or found none, and not called `epoll_wait` since. -/
def BeforeWait (rest : List Frame) (s : Thread V) : Prop :=
  ∃ fs f, s.stack = fs ++ f :: rest ∧ f.beforeWait = true

/-- A loop polls the front of the run queues if there is one. -/
lemma step_takesNext (ht : TakesNext rest s a) (h : s.step a = some s') (hp : s'.panicked = none) :
    BeforeWait rest s' ∧ (s.front = none ∨ ∃ u, .polled u ∈ s.fresh s') := by
  obtain ⟨f, k, hstack, hf, rfl⟩ := ht
  obtain ⟨f', hf'⟩ := Option.ne_none_iff_exists'.mp hf
  obtain ⟨-, hgo⟩ := go_of_step h
  have hwait : f'.beforeWait = true := by
    rcases Frame.of_loop hf' with ⟨rfl, rfl⟩ | ⟨b, rfl, rfl⟩ <;> rfl
  cases hfront : s.front with
  | none =>
    refine ⟨?_, .inl rfl⟩
    rcases Frame.of_loop hf' with ⟨rfl, rfl⟩ | ⟨b, rfl, rfl⟩
    · simp only [go, hstack, goRun, highestPriorityRunnableTask_eq, hfront, Option.map_none,
        Option.some.injEq] at hgo
      exact ⟨[], .run .checkSleepq, hgo ▸ rfl, rfl⟩
    · simp only [go, hstack, goBlockOn, highestPriorityRunnableTask_eq, hfront, Option.map_none,
        Option.some.injEq] at hgo
      exact ⟨[], .blockOn b .waitNone, hgo ▸ rfl, rfl⟩
  | some u =>
    have hrun : (({ s with queues := s.queues.release u } : Thread V).setStack (f' :: rest)).runTask u =
        s' := by
      rcases Frame.of_loop hf' with ⟨rfl, rfl⟩ | ⟨b, rfl, rfl⟩
      · simpa only [go, hstack, goRun, highestPriorityRunnableTask_eq, hfront, Option.map_some,
          Option.some.injEq] using hgo
      · simpa only [go, hstack, goBlockOn, highestPriorityRunnableTask_eq, hfront, Option.map_some,
          Option.some.injEq] using hgo
    unfold runTask at hrun
    split_ifs at hrun
    · simp [← hrun, panic] at hp
    · refine ⟨⟨[.runTask u .polling], f', hrun ▸ rfl, hwait⟩, .inr ⟨u, ?_⟩⟩
      have hlog : s'.log = .polled u :: s.log := hrun ▸ rfl
      simp [fresh, hlog]

/-- A loop above which nothing runs goes on to `epoll_wait`, if `run` does not get out of it. -/
lemma BeforeWait.go {k : KernelAnswer} {f : Frame} (hstack : s.stack = f :: rest)
    (hf : f.beforeWait = true) (h : s.go k = some s') (hw : s.waitsWith (.go k) = none) :
    BeforeWait rest s' := by
  unfold Frame.beforeWait at hf
  split at hf
  all_goals simp only [waitsWith, hstack] at hw
  all_goals simp only [Thread.go, hstack, goRun] at h
  · split_ifs at h
    · exact ⟨[], .run .replace, Option.some.inj h ▸ rfl, rfl⟩
    · exact ⟨[], .run .waitZero, Option.some.inj h ▸ rfl, rfl⟩
  · simp at hw
  · split_ifs at h
    · exact ⟨[], .run .replace, Option.some.inj h ▸ rfl, rfl⟩
    · exact ⟨[], .run .waitNone, Option.some.inj h ▸ rfl, rfl⟩
  · simp at hw
  · simp at h
  · simp at hw
  · simp at hw
  · simp at hf

/-- Such a loop is library code. -/
lemma inUserCode_of_beforeWait {f : Frame} (hstack : s.stack = f :: rest) (hf : f.beforeWait = true) :
    s.inUserCode = false := by
  unfold Frame.beforeWait at hf
  split at hf
  case h_8 => exact absurd hf Bool.false_ne_true
  all_goals simp [inUserCode, hstack]

/-- The loop does not take another task before it has called `epoll_wait`. -/
lemma BeforeWait.step (h : BeforeWait rest s) (hs : s.step a = some s') (hp : s'.panicked = none)
    (hw : s.waitsWith a = none) (ha : ∀ fd, a ≠ .replace fd) : BeforeWait rest s' := by
  obtain ⟨fs, f, hstack, hf⟩ := h
  cases fs with
  | nil =>
    have huser := inUserCode_of_beforeWait hstack hf
    have hother : ∀ {g : Frame} {r : List Frame}, s.stack = g :: r → g.beforeWait = true := fun hg =>
      (List.cons.inj (hstack.symm.trans hg)).1 ▸ hf
    cases (acts_of_step hs).2 with
    | go k hk hgo => exact BeforeWait.go hstack hf hgo hw
    | replaceFailed | replace => exact absurd rfl (ha _)
    | foreignUpgrade u => exact ⟨[], f, hstack, hf⟩
    | foreignWrite u => exact ⟨[], f, (foreignWrite_effects s u).steady.stack.trans hstack, hf⟩
    | foreignBlockOn b => exact ⟨[], f, (foreignBlockOn_effects s b).steady.stack.trans hstack, hf⟩
    | pending hg | blockOnPending hg | ready v hg | blockOnReady v hg | handleWoken hg | dropped hg
    | resumed hg | interrupted r hg | closure r hg => cases hother hg
    | spawn _ hu | wake _ _ hu | abort _ hu | handleResult _ hu | handlePoll _ _ hu | dropHandle _ hu
    | shutdown hu | run hu | blockOn hu | fdNew _ _ _ _ hu | fdDrop _ hu | pollWith _ _ _ hu =>
      exact absurd hu (Bool.eq_false_iff.mp huser)
  | cons g fs =>
    cases (move_of_step hs).2.stackChange hp with
    | same hstack' => exact ⟨g :: fs, f, hstack'.trans hstack, hf⟩
    | jump g₁ fs₁ rest₁ hstack₁ hstack' =>
      obtain ⟨-, rfl⟩ := List.cons.inj (hstack₁.symm.trans hstack)
      exact ⟨fs₁ ++ fs, f, hstack'.trans (List.append_assoc ..).symm, hf⟩
    | poll g₁ g' rest₁ u hstack₁ hstack' =>
      obtain ⟨-, rfl⟩ := List.cons.inj (hstack₁.symm.trans hstack)
      exact ⟨.runTask u .polling :: g' :: fs, f, hstack', hf⟩
    | replace rest₁ fd hreplace => exact absurd hreplace (ha _)

/-- A loop that is about to take a task has called `epoll_wait` since the last one. -/
lemma not_beforeWait (ht : TakesNext rest s a) : ¬ BeforeWait rest s := by
  rintro ⟨fs, f, hstack, hf⟩
  obtain ⟨g, k, hstack', hg, -⟩ := ht
  obtain ⟨g', hg'⟩ := Option.ne_none_iff_exists'.mp hg
  rw [hstack'] at hstack
  cases fs with
  | nil =>
    obtain ⟨rfl, -⟩ := List.cons.inj hstack
    rcases Frame.of_loop hg' with ⟨rfl, -⟩ | ⟨b, rfl, -⟩ <;> cases hf
  | cons h fs =>
    have hlen := congrArg List.length (List.cons.inj hstack).2
    simp at hlen
    omega

/-! ## Endless runs -/

section Runs

variable {r : EndlessRun (step (V := V))}

/-- A loop that takes tasks again and again calls `epoll_wait` again and again, unless `run` gets out of
it. -/
lemma waits_recur {n : ℕ} (hp : ∀ m, (r.state m).panicked = none)
    (hloop : ∀ k, n ≤ k → ∃ m, k ≤ m ∧ TakesNext rest (r.state m) (r.action m))
    (hkeep : ∀ m, n ≤ m → ∀ fd, r.action m ≠ .replace fd) (k : ℕ) :
    ∃ m, k ≤ m ∧ (r.state m).waitsWith (r.action m) ≠ none := by
  by_contra hnever
  push Not at hnever
  obtain ⟨m₀, hm₀, htakes₀⟩ := hloop (max n k) (le_max_left _ _)
  have hn := (le_max_left n k).trans hm₀
  have hk := (le_max_right n k).trans hm₀
  have hbefore : ∀ m, m₀ + 1 ≤ m → BeforeWait rest (r.state m) := by
    intro m hm
    induction m, hm using Nat.le_induction with
    | base => exact (step_takesNext htakes₀ (r.next m₀) (hp (m₀ + 1))).1
    | succ m hm ih => exact ih.step (r.next m) (hp (m + 1)) (hnever m (by omega)) (hkeep m (by omega))
  obtain ⟨m, hm, htakes⟩ := hloop (m₀ + 1) (by omega)
  exact not_beforeWait htakes (hbefore m hm)

/-- A pointer in the pipe is read, and its task becomes runnable, if the pipe is reported again and
again. -/
lemma runnable_of_within {n : ℕ} (h : Reachable step IsStart (r.state 0))
    (hp : ∀ m, (r.state m).panicked = none) (hkeep : ∀ m, n ≤ m → (r.state m).Ongoing t ∧
      (r.state (m + 1)).cur = (r.state m).cur ∧
        ∀ c, (r.state m).abs.Within t c → (r.state (m + 1)).abs.Within t c)
    (hreads : ∀ k, n ≤ k → ∃ m, k ≤ m ∧ .pipe ∈ (r.state m).reported (r.action m)) {c : ℕ}
    (hw : (r.state n).abs.Within t c) : ∃ m, n ≤ m ∧ (r.state m).runnable t := by
  induction c generalizing n with
  | zero => exact ⟨n, le_rfl, hw.resolve_right List.not_mem_nil⟩
  | succ c ih =>
    obtain ⟨m, hnm, hread⟩ := hreads n le_rfl
    have hwithin : (r.state m).abs.Within t (c + 1) := by
      clear hread
      induction m, hnm using Nat.le_induction with
      | base => exact hw
      | succ m hnm hm => exact (hkeep m hnm).2.2 _ hm
    obtain ⟨hongoing, hcur, -⟩ := hkeep m hnm
    rcases within_of_reported (r.reachable h m) hongoing (r.next m) (hp (m + 1)) hcur hread hwithin with
      hr | hr | hcloser
    · exact ⟨m, hnm, hr⟩
    · exact ⟨m + 1, by omega, hr⟩
    · obtain ⟨j, hj, hr⟩ := ih (fun j hj => hkeep j (by omega)) (fun k hk => hreads k (by omega)) hcloser
      exact ⟨j, by omega, hr⟩

/-- A task that is runnable, or whose pointer is in the pipe, is polled in every endless run without a panic,
under the conditions of `woken_task_polled`. -/
lemma delivered_task_polled (h : Reachable step IsStart (r.state 0)) (hp : ∀ n, (r.state n).panicked = none)
    (hloop : ∀ k, (r.state k).runnable t ∨ (r.state k).executor.pipe ≠ [] →
      ∃ m, k ≤ m ∧ TakesNext rest (r.state m) (r.action m))
    (hreports : ∀ k, (∀ m, k ≤ m → (r.state m).executor.pipe ≠ []) →
      (∀ j, ∃ m, j ≤ m ∧ (r.state m).waitsWith (r.action m) ≠ none) →
        ∃ m, k ≤ m ∧ .pipe ∈ (r.state m).reported (r.action m))
    (hpriority : ∃ n₀, ∀ m u, n₀ ≤ m → .polled u ∈ (r.state m).fresh (r.state (m + 1)) →
      ((r.state (m + 1)).tasks t).priority ≤ ((r.state (m + 1)).tasks u).priority)
    (n : ℕ) (ht : (r.state n).Ongoing t)
    (hw : (r.state n).runnable t ∨ some t ∈ (r.state n).executor.pipe) :
    (∃ m, n ≤ m ∧ (.polled t ∈ (r.state m).fresh (r.state (m + 1)) ∨
      .aborted t ∈ (r.state m).fresh (r.state (m + 1)) ∨
        ((r.state (m + 1)).tasks t).hasCompleted = true ∨ ∃ fd, r.action m = .replace fd)) ∨
      ∀ k, ∃ m, k ≤ m ∧ .enqueued t ∈ (r.state m).fresh (r.state (m + 1)) := by
  by_contra hnever
  push Not at hnever
  obtain ⟨hwaits, k₀, hquiet⟩ := hnever
  have hcur : ∀ m, n ≤ m → (r.state (m + 1)).cur = (r.state m).cur := fun m hnm =>
    cur_of_step (r.next m) fun fd => (hwaits m hnm).2.2.2 (some fd)
  have hstep : ∀ m, n ≤ m → (r.state m).Ongoing t → _ := fun m hnm hm =>
    hm.step (r.reachable h m) (r.next m) (hp (m + 1)) (hcur m hnm) (hwaits m hnm).1 (hwaits m hnm).2.1
      (Bool.eq_false_iff.mpr (hwaits m hnm).2.2.1)
  have hongoing : ∀ m, n ≤ m → (r.state m).Ongoing t := by
    intro m hnm
    induction m, hnm using Nat.le_induction with
    | base => exact ht
    | succ m hnm ih => exact (hstep m hnm ih).1
  -- The task stays runnable, or its pointer in its place.
  obtain ⟨c, hwithin⟩ : ∃ c, (r.state n).abs.Within t c := by
    refine ⟨(r.state n).executor.pipe.length, hw.imp_right fun hm => ?_⟩
    change some t ∈ (r.state n).executor.pipe.take _
    rwa [List.take_length]
  have hwithin : ∀ m, n ≤ m → (r.state m).abs.Within t c := by
    intro m hnm
    induction m, hnm using Nat.le_induction with
    | base => exact hwithin
    | succ m hnm ih => exact (hstep m hnm (hongoing m hnm)).2 c ih
  have htakes : ∀ k, n ≤ k → ∃ m, k ≤ m ∧ TakesNext rest (r.state m) (r.action m) := fun k hnk =>
    hloop k ((hwithin k hnk).imp_right fun hm hnil => by simp [abs, hnil] at hm)
  by_cases hrunnable : ∃ m, max n k₀ ≤ m ∧ (r.state m).runnable t
  · -- The task is runnable and stays so, and its turn comes.
    obtain ⟨m, hm, hr⟩ := hrunnable
    have hnm := (le_max_left _ _).trans hm
    obtain ⟨hstays, j, hmj, hnone⟩ := finitely_many_turns h hp hr fun i hi =>
      ⟨(hwaits i (hnm.trans hi)).1, (hwaits i (hnm.trans hi)).2.1,
        hquiet i (((le_max_right _ _).trans hm).trans hi), hcur i (hnm.trans hi)⟩
    obtain ⟨n₀, hpriority⟩ := hpriority
    obtain ⟨i, hi, htake⟩ := htakes (max j n₀) (hnm.trans (hmj.trans (le_max_left _ _)))
    have hji := (le_max_left _ _).trans hi
    obtain hnil | ⟨u, hu⟩ := (step_takesNext htake (r.next i) (hp (i + 1))).2
    · obtain ⟨u, hu⟩ := exists_front (hstays i (hmj.trans hji))
      simp [hnil] at hu
    · exact hnone i hji ⟨u, hu, hpriority i u ((le_max_right _ _).trans hi) hu⟩
  · -- Its pointer stays in the pipe, which is reported again and again.
    push Not at hrunnable
    have hpipe : ∀ m, max n k₀ ≤ m → (r.state m).executor.pipe ≠ [] := fun m hm hnil => by
      have hmem := (hwithin m ((le_max_left _ _).trans hm)).resolve_left (hrunnable m hm)
      simp [abs, hnil] at hmem
    have hreads : ∀ k, max n k₀ ≤ k → ∃ m, k ≤ m ∧ .pipe ∈ (r.state m).reported (r.action m) := fun k hk =>
      hreports k (fun m hm => hpipe m (hk.trans hm))
        (waits_recur hp htakes fun m hnm => (hwaits m hnm).2.2.2)
    obtain ⟨m, hm, hr⟩ := runnable_of_within h hp (n := max n k₀) (fun m hm =>
      have hnm := (le_max_left n k₀).trans hm
      ⟨hongoing m hnm, hcur m hnm, fun c => (hstep m hnm (hongoing m hnm)).2 c⟩) hreads
        (hwithin _ (le_max_left _ _))
    exact hrunnable m hm hr

/-- In every endless run without a panic a task that has been woken is polled, if a loop goes on taking
tasks as long as the task is runnable or a pointer is in the pipe, if the pipe is reported when
`epoll_wait` is called again and again while it holds a pointer, and if from some time on no tasks of
higher priority are polled; unless the task is aborted or completes, `run` gets out of its loop, or the
task is enqueued over and over again. -/
theorem woken_task_polled (h : Reachable step IsStart (r.state 0)) (hp : ∀ n, (r.state n).panicked = none)
    (hloop : ∀ k, (r.state k).runnable t ∨ (r.state k).executor.pipe ≠ [] →
      ∃ m, k ≤ m ∧ TakesNext rest (r.state m) (r.action m))
    (hreports : ∀ k, (∀ m, k ≤ m → (r.state m).executor.pipe ≠ []) →
      (∀ j, ∃ m, j ≤ m ∧ (r.state m).waitsWith (r.action m) ≠ none) →
        ∃ m, k ≤ m ∧ .pipe ∈ (r.state m).reported (r.action m))
    (hpriority : ∃ n₀, ∀ m u, n₀ ≤ m → .polled u ∈ (r.state m).fresh (r.state (m + 1)) →
      ((r.state (m + 1)).tasks t).priority ≤ ((r.state (m + 1)).tasks u).priority)
    (n : ℕ) (ht : (r.state n).Ongoing t) (hw : WakePending t (r.state n).log) :
    (∃ m, n ≤ m ∧ (.polled t ∈ (r.state m).fresh (r.state (m + 1)) ∨
      .aborted t ∈ (r.state m).fresh (r.state (m + 1)) ∨
        ((r.state (m + 1)).tasks t).hasCompleted = true ∨ ∃ fd, r.action m = .replace fd)) ∨
      ∀ k, ∃ m, k ≤ m ∧ .enqueued t ∈ (r.state m).fresh (r.state (m + 1)) := by
  have hd := ht.delivered (r.reachable h n) (hp n) hw
  exact delivered_task_polled h hp hloop hreports hpriority n ht hd

end Runs

/-- Another thread wakes a sleeping task while `run` waits. -/
theorem woken_task_polled_from_pipe : ∃ r : EndlessRun (step (V := Unit)),
    (r.state 0).stack = [.run .waitNone, .user] ∧ (r.state 0).executor.pipe = [some 0] ∧
      ((∃ m, 0 ≤ m ∧ (.polled 0 ∈ (r.state m).fresh (r.state (m + 1)) ∨
        .aborted 0 ∈ (r.state m).fresh (r.state (m + 1)) ∨
          ((r.state (m + 1)).tasks 0).hasCompleted = true ∨ ∃ fd, r.action m = .replace fd)) ∨
        ∀ k, ∃ m, k ≤ m ∧ .enqueued 0 ∈ (r.state m).fresh (r.state (m + 1))) := by
  -- The pipe is read, and then the task is polled.
  obtain ⟨s₀, hs₀, h⟩ := exists_reachable (V := Unit)
    [.spawn .normal, .run, .go (.ok []), .pending, .go (.ok []), .go (.ok []), .go (.ok []),
      .go (.ok []), .go (.ok []), .foreignUpgrade 0, .foreignWrite 0]
    (fun s₀ => (s₀.step (.go (.ok [.pipe]))).any fun s₁ : Thread Unit =>
      (s₁.step (.go (.ok []))).any fun s₂ : Thread Unit => decide (
        (s₀.stack = [.run .waitNone, .user] ∧ s₀.executor.pipe = [some 0] ∧ s₀.panicked = none) ∧
        (0 < s₀.nTasks ∧ (s₀.tasks 0).exec = s₀.cur ∧ (s₀.tasks 0).hasCompleted = false ∧
          .aborted 0 ∉ s₀.log ∧ WakePending 0 s₀.log) ∧
        (s₁.stack = [.run .select, .user] ∧ s₁.panicked = none) ∧
        ¬ s₂.runnable 0 ∧ s₂.executor.pipe = [] ∧ s₂.panicked = none ∧ s₂.inUserCode = true)) (by decide)
  obtain ⟨s₁, hs₁, h⟩ := (Option.any_eq_true _ _).mp h
  obtain ⟨s₂, hs₂, h⟩ := (Option.any_eq_true _ _).mp h
  obtain ⟨⟨hstack, hpipe, hp₀⟩, ⟨hlt, hexec, hc, hab, hw⟩, ⟨hstack₁, hp₁⟩, hrun, hnil, hp₂, hu⟩ :=
    of_decide_eq_true h
  let r : EndlessRun (step (V := Unit)) :=
    .cons s₀ (.go (.ok [.pipe])) (.cons s₁ (.go (.ok [])) (s₂.idle hp₂ hu) hs₂) hs₁
  have hp : ∀ n, (r.state n).panicked = none
    | 0 => hp₀
    | 1 => hp₁
    | _ + 2 => hp₂
  have htakes : TakesNext [.user] (r.state 1) (r.action 1) :=
    ⟨.run .select, .ok [], hstack₁, by simp [Frame.loop], rfl⟩
  have hloop : ∀ k, (r.state k).runnable 0 ∨ (r.state k).executor.pipe ≠ [] →
      ∃ m, k ≤ m ∧ TakesNext [.user] (r.state m) (r.action m) := by
    rintro (_ | _ | k) hk
    · exact ⟨1, Nat.zero_le 1, htakes⟩
    · exact ⟨1, le_rfl, htakes⟩
    · exact absurd hk (not_or.mpr ⟨hrun, not_not.mpr hnil⟩)
  refine ⟨r, hstack, hpipe,
    woken_task_polled hs₀ hp hloop ?_ ⟨2, ?_⟩ 0 ⟨hlt, hexec, hc, hab⟩ hw⟩
  · exact fun k hnonempty => absurd hnil (hnonempty (k + 2) (Nat.le_add_right k 2))
  · rintro (_ | _ | m) u hm hpolled
    · omega
    · omega
    · have hquiet : ∀ e, e ∉ s₂.fresh s₂ := by simp [fresh]
      exact absurd hpolled (hquiet _)

end Thread

end Epox

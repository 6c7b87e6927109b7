import Epox.Waker.References

/-!
# Pointers in flight

As long as the executor of a task is open, the number in its `pipe_wr` names the pipe of that executor,
so that a pointer that another thread writes is in this pipe and will be read.  With the accounts this
gives the number of the weak references of a task: the calls in progress apart, it is that of its wakers
and of its pointers in the pipe.
-/

namespace Epox

/-! ## Which pipe a pointer is in -/

/-- The pipe of an executor that is open is at its descriptor, and a task has the descriptor of its
executor. -/
structure Layout.Ok (l : Layout) : Prop where
  exec : ∀ x, l.isOpen x = true → x < l.nExecs ∧ l.files (l.execPipe x) = some (.pipe x)
  file : ∀ fd x, l.files fd = some (.pipe x) → l.isOpen x = true ∧ l.execPipe x = fd
  home : ∀ t < l.nTasks, l.home t < l.nExecs ∧ l.pipeWr t = l.execPipe (l.home t)

/-- A pointer to a task whose executor is open is in the pipe of that executor. -/
def Layout.InPlace (l : Layout) (x : ExecId) (r : Ref) : Prop :=
  r.task < l.nTasks ∧ (l.isOpen (l.home r.task) = true → x = l.home r.task)

/-- The executor of the task is not open any more. -/
def Layout.Homeless (l : Layout) (r : Ref) : Prop :=
  r.task < l.nTasks ∧ l.isOpen (l.home r.task) = false

/-- A pointer is written to the pipe of the executor of its task, unless that has been closed. -/
lemma Layout.Ok.write {l : Layout} (h : l.Ok) {r : Ref} (hr : r.task < l.nTasks) :
    (∀ x, l.files (l.pipeWr r.task) = some (.pipe x) → l.InPlace x r) ∧
      ((∀ x, l.files (l.pipeWr r.task) ≠ some (.pipe x)) → l.Homeless r) := by
  obtain ⟨-, hpipe⟩ := h.home r.task hr
  have hopen : l.isOpen (l.home r.task) = true →
      l.files (l.pipeWr r.task) = some (.pipe (l.home r.task)) := fun ho => hpipe ▸ (h.exec _ ho).2
  refine ⟨fun x hx => ⟨hr, fun ho => ?_⟩, fun hnone => ⟨hr, ?_⟩⟩
  · exact File.pipe.inj (Option.some.inj (hx.symm.trans (hopen ho)))
  · by_contra ho
    exact hnone _ (hopen (by simpa using ho))

namespace Refs

variable {s s' : Refs}

/-- The pointers are where they belong, as long as the executors of their tasks are open. -/
structure Placed (s : Refs) : Prop where
  layout : s.toLayout.Ok
  made : ∀ r ∈ s.made, r.task < s.nTasks
  calls : ∀ c ∈ s.calls, ∀ r ∈ c.stage.refs, r.task = c.ptr.task
  pipes : ∀ x r, (x, some r) ∈ s.pipes → s.toLayout.InPlace x r
  lost : ∀ r ∈ s.lost, s.toLayout.Homeless r

/-- The executors and tasks stay as they are, and no pointer is moved. -/
lemma Placed.keep (h : s.Placed) (hlayout : s'.toLayout = s.toLayout)
    (hmade : ∀ r ∈ s'.made, r ∈ s.made ∨ r.task < s.nTasks)
    (hcalls : ∀ c ∈ s'.calls, c ∈ s.calls ∨ ∀ r ∈ c.stage.refs, r.task = c.ptr.task)
    (hpipes : ∀ x r, (x, some r) ∈ s'.pipes → (x, some r) ∈ s.pipes ∨ s.toLayout.InPlace x r)
    (hlost : ∀ r ∈ s'.lost, r ∈ s.lost ∨ s.toLayout.Homeless r) : s'.Placed where
  layout := hlayout ▸ h.layout
  made r hr := by
    have hn : s'.nTasks = s.nTasks := congrArg Layout.nTasks hlayout
    exact hn ▸ (hmade r hr).elim (h.made r) id
  calls c hc := (hcalls c hc).elim (h.calls c) id
  pipes x r he := hlayout ▸ (hpipes x r he).elim (h.pipes x r) id
  lost r hr := hlayout ▸ (hlost r hr).elim (h.lost r) id

/-- The pointers of a call that goes on without making one. -/
lemma calls_setCall {c : Call} {stage : CallStage}
    (hrefs : ∀ r ∈ stage.refs, r.task = c.ptr.task) :
    ∀ d ∈ (s.setCall c stage).calls, d ∈ s.calls ∨ ∀ r ∈ d.stage.refs, r.task = d.ptr.task := by
  intro d hd
  rcases List.mem_cons.mp hd with rfl | hd
  · exact .inr hrefs
  · exact .inl (List.mem_of_mem_erase hd)

/-- A call goes on without making a pointer, and counts change. -/
lemma Placed.setCall (h : s.Placed) {c : Call} {stage : CallStage}
    (hrefs : ∀ r ∈ stage.refs, r.task = c.ptr.task) {weak strong : TaskId → ℕ} {corrupt : Bool} :
    ({ s with weak := weak, strong := strong, corrupt := corrupt }.setCall c stage).Placed :=
  h.keep rfl (fun _ => .inl)
    (calls_setCall (s := { s with weak := weak, strong := strong, corrupt := corrupt }) hrefs)
    (fun _ _ => .inl) fun _ => .inl

/-- A call makes a pointer. -/
lemma Placed.makeRef (h : s.Placed) {c : Call} (hptr : c.ptr.task < s.nTasks) {stage : CallStage}
    (hrefs : ∀ r ∈ stage.refs, r.task = c.ptr.task) :
    ((s.makeRef c.ptr.task).setCall c stage).Placed := by
  refine h.keep rfl (fun r hr => ?_) (calls_setCall (s := s.makeRef c.ptr.task) hrefs)
    (fun _ _ => .inl) fun _ => .inl
  rcases List.mem_cons.mp hr with rfl | hr
  · exact .inr hptr
  · exact .inl hr

/-- A call ends. -/
lemma Placed.finish (h : s.Placed) (c : Call) (w : Option Ref) : (s.finish c w).Placed := by
  have hcalls : ∀ d ∈ s.calls.erase c, d ∈ s.calls ∨ ∀ r ∈ d.stage.refs, r.task = d.ptr.task :=
    fun d hd => .inl (List.mem_of_mem_erase hd)
  unfold Refs.finish
  split_ifs
  · exact h.keep rfl (fun _ => .inl) hcalls (fun _ _ => .inl) fun _ => .inl
  · exact h.keep rfl (fun _ => .inl) hcalls (fun _ _ => .inl) fun _ => .inl

/-- A pointer is written to the descriptor that its task has, or lost if that is closed. -/
lemma Placed.write (h : s.Placed) {r : Ref} (hr : r.task < s.nTasks) :
    (s.write (s.pipeWr r.task) r).Placed := by
  obtain ⟨hpipe, hlost⟩ := h.layout.write hr
  unfold Refs.write
  split
  · rename_i x hx
    refine h.keep rfl (fun _ => .inl) (fun _ => .inl) (fun y q hq => ?_) fun _ => .inl
    rcases List.mem_append.mp hq with hq | hq
    · exact .inl hq
    · obtain ⟨rfl, rfl⟩ : y = x ∧ q = r := by simpa using hq
      exact .inr (hpipe _ hx)
  · rename_i j hx
    refine h.keep rfl (fun _ => .inl) (fun _ => .inl) (fun _ _ => .inl) fun q hq => ?_
    rcases List.mem_cons.mp hq with rfl | hq
    · exact .inr (hlost fun x hx' => by simp [hx'] at hx)
    · exact .inl hq
  · rename_i hx
    refine h.keep rfl (fun _ => .inl) (fun _ => .inl) (fun _ _ => .inl) fun q hq => ?_
    rcases List.mem_cons.mp hq with rfl | hq
    · exact .inr (hlost fun x hx' => by simp [hx'] at hx)
    · exact .inl hq

/-- Every step of a call leaves the pointers where they belong. -/
lemma Placed.advance (h : s.Placed) (hsound : s.Sound) {c : Call} (hc : c ∈ s.calls) {kept : Bool}
    (hs : s.advance c kept = some s') : s'.Placed := by
  have hptr : c.ptr.task < s.nTasks := h.made _ (hsound.balanced.mem_made (hsound.ptr_mem hc))
  have henqueue : ((s.enqueue c.ptr.task kept).setCall c (.returning none)).Placed := by
    obtain ⟨strong, he⟩ := s.enqueue_eq c.ptr.task kept
    rw [he]
    exact h.setCall (by simp [CallStage.refs])
  unfold Refs.advance at hs
  cases hstage : c.stage with
  | entered =>
    simp only [hstage] at hs
    exact Option.some.inj hs ▸ h.setCall (by simp [CallStage.refs])
  | rebuilt =>
    simp only [hstage] at hs
    split_ifs at hs
    · exact Option.some.inj hs ▸ h.finish c none
    · exact Option.some.inj hs ▸ h.setCall (by simp [CallStage.refs])
    · exact Option.some.inj hs ▸ h.setCall (by simp [CallStage.refs])
  | upgraded =>
    simp only [hstage] at hs
    split at hs
    · exact Option.some.inj hs ▸ h.makeRef hptr (by simp [CallStage.refs, Refs.next])
    · split_ifs at hs
      · exact Option.some.inj hs ▸ henqueue
      · exact Option.some.inj hs ▸ h.makeRef hptr (by simp [CallStage.refs, Refs.next])
    · split_ifs at hs
      · exact Option.some.inj hs ▸ henqueue
      · exact Option.some.inj hs ▸ h.makeRef hptr (by simp [CallStage.refs, Refs.next])
    · exact Option.some.inj hs ▸ henqueue
    · exact Option.some.inj hs ▸ henqueue
    · simp at hs
  | sending r =>
    simp only [hstage] at hs
    have hr : r.task = c.ptr.task := h.calls c hc r (by simp [hstage, CallStage.refs])
    have hgone : (s.setCall c (.holding none)).Placed := h.setCall (by simp [CallStage.refs])
    have hwritten := hgone.write (r := r) (hr ▸ hptr)
    rw [hr] at hwritten
    exact Option.some.inj hs ▸ hwritten
  | holding w =>
    simp only [hstage] at hs
    refine Option.some.inj hs ▸ h.setCall fun r hr => h.calls c hc r ?_
    rw [hstage]
    exact hr
  | returning w =>
    simp only [hstage] at hs
    exact Option.some.inj hs ▸ h.finish c w

/-- A new executor. -/
lemma Placed.newExecutor (h : s.Placed) {pipeWr : RawFd} (hfree : s.files pipeWr = none) :
    (s.newExecutor pipeWr).Placed := by
  have hold : ∀ {x}, x < s.nExecs → x ≠ s.nExecs := fun hx => hx.ne
  have hhome : ∀ t < s.nTasks, (s.newExecutor pipeWr).isOpen (s.home t) = s.isOpen (s.home t) :=
    fun t ht => Function.update_of_ne (hold (h.layout.home t ht).1) ..
  refine ⟨⟨fun x hx => ?_, fun fd x hx => ?_, fun t ht => ?_⟩, h.made, h.calls, fun x r he => ?_,
    fun r hr => ?_⟩
  · by_cases hn : x = s.nExecs
    · subst hn
      simp [Refs.newExecutor]
    · have ho : s.isOpen x = true := by simpa [Refs.newExecutor, hn] using hx
      obtain ⟨hlt, hfile⟩ := h.layout.exec x ho
      have hne : s.execPipe x ≠ pipeWr := fun he => by simp [he, hfree] at hfile
      simpa [Refs.newExecutor, hn, hne, hfile] using hlt.trans (Nat.lt_succ_self _)
  · by_cases hfd : fd = pipeWr
    · subst hfd
      obtain rfl : s.nExecs = x := by simpa [Refs.newExecutor] using hx
      simp [Refs.newExecutor]
    · obtain ⟨ho, hpipe⟩ := h.layout.file fd x (by simpa [Refs.newExecutor, hfd] using hx)
      have hn := hold (h.layout.exec x ho).1
      simp [Refs.newExecutor, hn, ho, hpipe]
  · obtain ⟨hlt, hpipe⟩ := h.layout.home t ht
    exact ⟨hlt.trans (Nat.lt_succ_self _), by simpa [Refs.newExecutor, hold hlt] using hpipe⟩
  · obtain ⟨ht, hplace⟩ := h.pipes x r he
    exact ⟨ht, fun ho => hplace ((hhome _ ht).symm.trans ho)⟩
  · obtain ⟨ht, hclosed⟩ := h.lost r hr
    exact ⟨ht, (hhome _ ht).trans hclosed⟩

/-- An executor closes its pipe. -/
lemma Placed.close (h : s.Placed) {x : ExecId} (hx : s.isOpen x = true) : (s.close x).Placed := by
  have hopen : ∀ {y}, (s.close x).isOpen y = true → y ≠ x ∧ s.isOpen y = true := by
    intro y hy
    by_cases hyx : y = x
    · simp [Refs.close, hyx] at hy
    · exact ⟨hyx, by simpa [Refs.close, hyx] using hy⟩
  have hclosed : ∀ {y}, s.isOpen y = false → (s.close x).isOpen y = false := by
    intro y hy
    by_contra ho
    simp [(hopen (by simpa using ho)).2] at hy
  refine ⟨⟨fun y hy => ?_, fun fd y hy => ?_, h.layout.home⟩, h.made, h.calls, fun y r he => ?_,
    fun r hr => ?_⟩
  · obtain ⟨hyx, ho⟩ := hopen hy
    obtain ⟨hlt, hfile⟩ := h.layout.exec y ho
    have hne : s.execPipe y ≠ s.execPipe x := fun he => by
      rw [he, (h.layout.exec x hx).2] at hfile
      exact hyx (File.pipe.inj (Option.some.inj hfile)).symm
    exact ⟨hlt, (Function.update_of_ne hne ..).trans hfile⟩
  · have hfd : fd ≠ s.execPipe x := fun he => by simp [Refs.close, he] at hy
    obtain ⟨ho, hpipe⟩ := h.layout.file fd y (by simpa [Refs.close, hfd] using hy)
    have hyx : y ≠ x := fun he => hfd (he ▸ hpipe.symm)
    exact ⟨by simpa [Refs.close, hyx] using ho, hpipe⟩
  · obtain ⟨ht, hplace⟩ := h.pipes y r (List.mem_of_mem_filter he)
    exact ⟨ht, fun ho => hplace (hopen ho).2⟩
  · rcases List.mem_append.mp hr with hr | hr
    · -- A pointer in the pipe is one to a task of the executor, unless that of the task has gone before.
      obtain ⟨⟨y, p⟩, he, rfl⟩ := List.mem_filterMap.mp hr
      obtain ⟨hmem, hy⟩ := List.mem_filter.mp he
      obtain rfl : y = x := by simpa using hy
      obtain ⟨ht, hplace⟩ := h.pipes y r hmem
      refine ⟨ht, ?_⟩
      by_contra ho
      obtain ⟨hne, ho⟩ := hopen (by simpa using ho)
      exact hne (hplace ho).symm
    · exact (h.lost r hr).imp_right hclosed

/-- A file that is no pipe is opened or closed. -/
lemma Placed.setFile (h : s.Placed) {fd : RawFd} {f : Option File}
    (hold : ∀ x, s.files fd ≠ some (.pipe x)) (hnew : ∀ x, f ≠ some (.pipe x)) :
    Placed { s with files := Function.update s.files fd f } := by
  refine ⟨⟨fun x hx => ?_, fun fd' x hx => ?_, h.layout.home⟩, h.made, h.calls, h.pipes, h.lost⟩
  · obtain ⟨hlt, hfile⟩ := h.layout.exec x hx
    exact ⟨hlt, (Function.update_of_ne (fun he : s.execPipe x = fd => hold x (he ▸ hfile)) ..).trans
      hfile⟩
  · by_cases hfd : fd' = fd
    · exact absurd (by simpa [hfd] using hx) (hnew x)
    · exact h.layout.file fd' x (by simpa [hfd] using hx)

/-- A new task. -/
lemma Placed.spawn (h : s.Placed) {x : ExecId} (hx : s.isOpen x = true) : (s.spawn x).Placed := by
  have hhome : ∀ {t}, t < s.nTasks → (s.spawn x).home t = s.home t := fun ht =>
    Function.update_of_ne ht.ne ..
  refine ⟨⟨h.layout.exec, h.layout.file, fun t ht => ?_⟩, fun r hr => ?_, h.calls, fun y r he => ?_,
    fun r hr => ?_⟩
  · by_cases hn : t = s.nTasks
    · subst hn
      simpa [Refs.spawn, Refs.makeRef] using (h.layout.exec x hx).1
    · have hlt : t < s.nTasks := lt_of_le_of_ne (Nat.lt_succ_iff.mp ht) hn
      simpa [Refs.spawn, Refs.makeRef, hn] using h.layout.home t hlt
  · rcases List.mem_cons.mp hr with rfl | hr
    · exact Nat.lt_succ_self _
    · exact (h.made r hr).trans (Nat.lt_succ_self _)
  · obtain ⟨ht, hplace⟩ := h.pipes y r he
    refine ⟨ht.trans (Nat.lt_succ_self _), ?_⟩
    rw [hhome ht]
    exact hplace
  · obtain ⟨ht, hclosed⟩ := h.lost r hr
    refine ⟨ht.trans (Nat.lt_succ_self _), ?_⟩
    rw [hhome ht]
    exact hclosed

/-- Every step in which no wake panics leaves the pointers where they belong. -/
lemma Placed.step (h : s.Placed) (hsound : s.Sound) {a : Action} (hC : s.WakesReturn a)
    (hs : s.step a = some s') : s'.Placed := by
  -- The executors, the tasks and the pointers in the pipes stay as they are, or pointers are taken out.
  have hkeep : ∀ {wakers pipes calls strong}, (∀ e ∈ pipes, e ∈ s.pipes ∨ e.2 = none) →
      (∀ c ∈ calls, c ∈ s.calls ∨ c.stage = .entered) →
        Placed { s with wakers := wakers, pipes := pipes, calls := calls, strong := strong } := by
    intro wakers pipes calls strong hpipes hcalls
    refine h.keep rfl (fun _ => .inl) (fun c hc => (hcalls c hc).imp_right fun he => ?_)
      (fun x r he => .inl ((hpipes _ he).resolve_right nofun)) fun _ => .inl
    simp [he, CallStage.refs]
  cases a with
  | newExecutor pipeWr =>
    simp only [Refs.step] at hs
    split_ifs at hs with hfree
    exact Option.some.inj hs ▸ h.newExecutor hfree
  | close x =>
    simp only [Refs.step] at hs
    split_ifs at hs with hx
    exact Option.some.inj hs ▸ h.close hx
  | openFile fd j =>
    simp only [Refs.step] at hs
    split_ifs at hs with hfree
    exact Option.some.inj hs ▸ h.setFile (by simp [hfree]) (by simp)
  | closeFile fd =>
    simp only [Refs.step] at hs
    split at hs
    · rename_i j hj
      exact Option.some.inj hs ▸ h.setFile (by simp [hj]) (by simp)
    · simp at hs
  | spawn x =>
    simp only [Refs.step] at hs
    split_ifs at hs with hx
    exact Option.some.inj hs ▸ h.spawn hx
  | retain t | release t =>
    simp only [Refs.step] at hs
    split_ifs at hs
    exact Option.some.inj hs ▸ hkeep (fun _ => .inl) fun _ => .inl
  | call fn r x =>
    have hcalls : ∀ c ∈ ⟨fn, r, x, .entered⟩ :: s.calls, c ∈ s.calls ∨ c.stage = .entered := by
      intro c hc
      rcases List.mem_cons.mp hc with rfl | hc
      · exact .inr rfl
      · exact .inl hc
    simp only [Refs.step] at hs
    split_ifs at hs
    · exact Option.some.inj hs ▸ hkeep (fun _ => .inl) hcalls
    · exact Option.some.inj hs ▸ hkeep (fun _ => .inl) hcalls
  | wakeBlockOn fd =>
    simp only [Refs.step] at hs
    split at hs
    · refine Option.some.inj hs ▸ hkeep (fun e he => ?_) fun _ => .inl
      rcases List.mem_append.mp he with he | he
      · exact .inl he
      · obtain rfl := List.mem_singleton.mp he
        exact .inr rfl
    · exact Option.some.inj hs ▸ h
  | read x =>
    simp only [Refs.step] at hs
    split at hs
    · rename_i y r hfind
      refine Option.some.inj hs ▸ hkeep (fun e he => .inl (List.mem_of_mem_erase he)) fun c hc => ?_
      rcases List.mem_cons.mp hc with rfl | hc
      · exact .inr rfl
      · exact .inl hc
    · exact Option.some.inj hs ▸ hkeep (fun e he => .inl (List.mem_of_mem_erase he)) fun _ => .inl
    · simp at hs
  | advance c kept =>
    simp only [Refs.step] at hs
    split_ifs at hs with hc
    exact h.advance hsound hc hs
  | unwind c => exact hC.elim

/-- The pointers are where they belong in a run in which no wake panics. -/
lemma placed_of_reachable (h : ReachableUnder step IsStart WakesReturn s) : s.Placed := by
  refine h.invariant ?_ fun _ _ _ h ih hC hs => ih.step (sound_of_reachable h) hC hs
  rintro s rfl
  exact ⟨⟨nofun, nofun, nofun⟩, nofun, nofun, nofun, nofun⟩

/-! ## The count -/

/-- The pointers to the task in the pipe of the executor. -/
def inFlight (s : Refs) (x : ExecId) (t : TaskId) : ℕ :=
  s.pipes.countP fun e => e.1 = x ∧ e.2.any (·.task = t)

/-- A task whose executor is open has as many weak references as it has wakers, pointers in the pipe of
its executor, and pointers owned by calls in progress. -/
lemma weak_eq (hsound : s.Sound) (hplaced : s.Placed) {t : TaskId} (hopen : s.isOpen (s.home t) = true) :
    s.weak t = s.wakers.countP (·.task = t) + s.inFlight (s.home t) t +
      (s.calls.flatMap Call.owned).countP (·.task = t) := by
  have hlost : s.lost.countP (·.task = t) = 0 := by
    refine List.countP_eq_zero.mpr fun r hr ht => ?_
    have hclosed := (hplaced.lost r hr).2
    simp [of_decide_eq_true ht, hopen] at hclosed
  have hpipe : (s.pipes.filterMap Prod.snd).countP (·.task = t) = s.inFlight (s.home t) t := by
    rw [List.countP_filterMap]
    refine List.countP_congr fun e he => ?_
    obtain ⟨x, p⟩ := e
    cases p with
    | none => simp
    | some r =>
      simp only [Option.map_some, Option.getD_some, Option.any_some, decide_eq_true_eq]
      refine ⟨fun ht => ⟨?_, ht⟩, And.right⟩
      subst ht
      exact (hplaced.pipes x r he).2 hopen
  rw [hsound.weak]
  simp only [held, Multiset.countP_add, Multiset.coe_countP, hlost, hpipe, add_zero]

end Refs

end Epox

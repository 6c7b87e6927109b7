import Epox.Executor.Events
import Epox.Executor.Waiting

/-!
# Readiness

`Epoll V` is a thread together with what the kernel knows of the descriptors behind its `Fd`s: in which
directions they are ready, and for which of these an edge is queued.  The kernel queues an edge whenever
a registered descriptor becomes ready in a direction (and possibly at other times); `epoll_wait` reports
descriptors with a queued edge, each with all directions in which it has one and is ready, and takes
their edges off its queue.  A closure returns `WouldBlock` for an operation in the directions `d` only if
the descriptor was not ready in them when it was tried: if it is by now, an edge is queued.

Edge-triggered readiness has to be remembered by `EpollWaker::events`.  It is, as long as a closure that
returns `WouldBlock` leaves no other registered direction ready without an edge, since `poll_with`
clears the flags of all directions (`remembered_of_reachable`, `remembered_iff`).
-/

namespace Epox

namespace EpollFlags

/-- Containment, flag by flag. -/
lemma contains_iff {x y : EpollFlags} :
    x.contains y = true ↔ ∀ i, y.getLsbD i = true → x.getLsbD i = true := by
  simp only [contains, beq_iff_eq]
  constructor
  · intro h i hi
    rw [← h] at hi
    simp only [BitVec.getLsbD_and, Bool.and_eq_true] at hi
    exact hi.1
  · intro h
    refine BitVec.eq_of_getLsbD_eq fun i hi => ?_
    have hi' := h i
    simp only [BitVec.getLsbD_and]
    cases hy : y.getLsbD i <;> simp_all

/-- No flag is set. -/
lemma eq_zero_iff {x : EpollFlags} : x = 0 ↔ ∀ i, x.getLsbD i = false := by
  constructor
  · rintro rfl i
    simp
  · intro h
    exact BitVec.eq_of_getLsbD_eq fun i _ => by simp [h i]

end EpollFlags

/-- A thread and the readiness of the descriptors of its `Fd`s. -/
structure Epoll (V : Type) where
  thread : Thread V
  /-- The directions in which a descriptor is ready. -/
  ready : FdId → EpollFlags
  /-- The directions for which it was registered. -/
  mask : FdId → EpollFlags
  /-- The directions for which an edge is queued. -/
  edge : FdId → EpollFlags
  /-- The waker of the latest poll of an `Fd`, if this returned `Poll::Pending` without waking itself and
  no event has been delivered since. -/
  parked : FdId → Option Waker

/-- What happens to the thread or to a descriptor. -/
inductive EpollAction (V : Type)
  /-- The thread takes a step in which no closure returns `WouldBlock`. -/
  | thread (a : Action V)
  /-- The closure on top of the stack returns `WouldBlock` for an operation in the directions `d`. -/
  | wouldBlock (d : EpollFlags)
  /-- A descriptor becomes ready. -/
  | arrive (f : FdId) (d : EpollFlags)
  /-- A descriptor is no longer ready. -/
  | recede (f : FdId) (d : EpollFlags)
  /-- An edge is queued for a descriptor that has been ready already. -/
  | notify (f : FdId) (d : EpollFlags)
  /-- The kernel drops the edges of directions in which the descriptor is not ready any more. -/
  | forget (f : FdId) (d : EpollFlags)
  /-- The edges of a descriptor that is not registered with the executor of the thread are lost. -/
  | lose (f : FdId)

namespace Thread

variable {V : Type} {s s' : Thread V}

/-- The registration of the `Fd` with the executor of the thread is in place. -/
def inInterest (s : Thread V) (f : FdId) : Prop :=
  ((s.fds f).raw, f) ∈ s.executor.interest

instance (s : Thread V) (f : FdId) : Decidable (s.inInterest f) :=
  inferInstanceAs (Decidable (((s.fds f).raw, f) ∈ s.executor.interest))

/-- The step delivers an event for the `Fd`. -/
def delivers (s : Thread V) (a : Action V) (f : FdId) : Bool :=
  ((s.reported a).map EpollEvent.key).contains (some f)

/-- The `Fd` whose closure is on top of the stack. -/
def calling (s : Thread V) : Option FdId :=
  match s.stack with
  | .pollWith f _ :: _ => some f
  | _ => none

/-- A closure on top of the stack. -/
lemma stack_of_calling {f : FdId} (h : s.calling = some f) :
    ∃ cx rest, s.stack = .pollWith f cx :: rest := by
  unfold calling at h
  split at h
  · rename_i g cx rest hstack
    exact ⟨cx, rest, Option.some.inj h ▸ hstack⟩
  · simp at h

/-! ## Registrations -/

/-- The `Fd`s are registered as before. -/
structure SameInterest (s s' : Thread V) : Prop where
  nFds : s'.nFds = s.nFds
  raw : ∀ f, (s'.fds f).raw = (s.fds f).raw
  interest : s'.executor.interest = s.executor.interest

/-- Changing an executor but not its interest set. -/
lemma sameInterest_setExec (s : Thread V) {x : ExecId} {e : Executor}
    (he : e.interest = (s.execs x).interest) : SameInterest s (s.setExec x e) := by
  refine ⟨rfl, fun _ => rfl, ?_⟩
  by_cases hx : s.cur = x
  · simp [executor, setExec, hx, he]
  · simp [executor, setExec, hx]

/-- Changing an `Fd` but not its descriptor. -/
lemma sameInterest_setFd (s : Thread V) {f : FdId} {fd : Fd} (hraw : fd.raw = (s.fds f).raw) :
    SameInterest s (s.setFd f fd) := by
  refine ⟨rfl, fun g => ?_, rfl⟩
  by_cases hg : g = f
  · simp [setFd, hg, hraw]
  · simp [setFd, hg]

/-- The effects of wakes leave the registrations alone. -/
lemma Effects.sameInterest (h : Effects s s') : SameInterest s s' := by
  have hu := h.untouched
  refine ⟨hu.nFds, fun f => ?_, ?_⟩
  · exact (congrArg Fd.raw (hu.fds f) :)
  · rw [executor, hu.cur]
    exact (congrArg Executor.interest (hu.execs s.cur) :)

/-- Only creating and dropping `Fd`s and replacing the executor change the registrations. -/
lemma Move.sameInterest {a : Action V} (hm : Move s a s') :
    SameInterest s s' ∨
      (∃ raw events fcntl ctl, a = .fdNew raw events fcntl ctl ∧ s' = s.fdNew raw events fcntl ctl) ∨
        (∃ f, s' = s.fdDrop f) ∨ s'.nFds = s.nFds ∧ s'.executor.interest = [] := by
  cases hm with
  | stay hu heff => exact .inl heff.sameInterest
  | jump hstack hj =>
    have h := hj.effects.sameInterest
    exact .inl ⟨h.nFds, h.raw, h.interest⟩
  | crash heff hp =>
    have h := heff.sameInterest
    exact .inl ⟨h.nFds, h.raw, h.interest⟩
  | repoll hstack hpc heff =>
    have h := heff.sameInterest
    exact .inl ⟨h.nFds, h.raw, h.interest⟩
  | @close k x rest hstack =>
    have h := sameInterest_setExec s (x := x) (e := { s.execs x with isOpen := false }) rfl
    exact .inl ⟨h.nFds, h.raw, h.interest⟩
  | spawn hu =>
    rw [Thread.spawn, enqueue_of_not_completed (by simp)]
    exact .inl ⟨rfl, fun _ => rfl, rfl⟩
  | shutdown hu => exact .inl (sameInterest_setExec s rfl)
  | @enterPollWith f cx k hu =>
    have h : SameInterest s (s.setFd f { s.fds f with borrowed := true }) := sameInterest_setFd s rfl
    exact .inl ⟨h.nFds, h.raw, h.interest⟩
  | @closure r f cx ew rest hstack =>
    have h : SameInterest s (s.setFd f { s.fds f with ew := ew, borrowed := false }) :=
      sameInterest_setFd s rfl
    exact .inl ⟨h.nFds, h.raw, h.interest⟩
  | @foreignWrite t =>
    have h := (foreignWrite_effects s t).sameInterest
    exact .inl ⟨h.nFds, h.raw, h.interest⟩
  | foreignBlockOn => exact .inl (foreignBlockOn_effects s _).sameInterest
  | fdNew hu => exact .inr (.inl ⟨_, _, _, _, rfl, rfl⟩)
  | fdDrop hu hlive => exact .inr (.inr (.inl ⟨_, rfl⟩))
  | replace hstack hfd =>
    refine .inr (.inr (.inr ⟨rfl, ?_⟩))
    simp [executor, setExec, Thread.setStack, Executor.new]
  | _ => exact .inl ⟨rfl, fun _ => rfl, rfl⟩

/-- What dropping an `Fd` leaves registered was registered. -/
lemma inInterest_of_fdDrop {f g : FdId} (h : (s.fdDrop g).inInterest f) : s.inInterest f := by
  have hraw : ((s.fdDrop g).fds f).raw = (s.fds f).raw := by
    by_cases hg : f = g <;> simp [fdDrop, setFd, epollDel, setExec, emit, hg]
  have hinterest : (s.fdDrop g).executor.interest =
      s.executor.interest.filter fun i => i.1 ≠ (s.fds g).raw := by
    simp [fdDrop, setFd, epollDel, setExec, emit, executor]
  rw [inInterest, hraw, hinterest] at h
  exact (List.mem_filter.mp h).1

/-- What a new `Fd` is, and what it does to the others. -/
lemma fdNew_spec (s : Thread V) (raw : RawFd) (events : EpollFlags) (ctl : Bool) :
    (s.fdNew raw events true ctl).nFds = s.nFds + 1 ∧
      ((s.fdNew raw events true ctl).fds s.nFds).ew =
        EpollWaker.new (events &&& (EpollFlags.epollIn ||| EpollFlags.epollOut)) ∧
      ∀ f, f < s.nFds → (s.fdNew raw events true ctl).inInterest f → s.inInterest f := by
  let fd : Fd :=
    { raw := raw
      ew := EpollWaker.new (events &&& (EpollFlags.epollIn ||| EpollFlags.epollOut))
      borrowed := false
      exec := s.cur
      live := true }
  let s₁ : Thread V := { s with fds := Function.update s.fds s.nFds fd, nFds := s.nFds + 1 }
  have hother : ∀ f, f < s.nFds → (s₁.fds f).raw = (s.fds f).raw := fun f hf => by
    simp [s₁, hf.ne]
  have hadd : ∀ f, f < s.nFds → (s₁.epollAdd raw s.nFds ctl).1.inInterest f → s.inInterest f := by
    intro f hf h
    unfold epollAdd at h
    dsimp only at h
    split_ifs at h
    · simp only [inInterest, setExec, executor, Function.update_self, List.mem_append,
        List.mem_singleton, Prod.mk.injEq] at h
      rw [hother f hf] at h
      exact h.resolve_right fun h => hf.ne h.2
    · simp only [inInterest, setExec, executor, Function.update_self] at h
      rwa [hother f hf] at h
  have hfds : (s₁.epollAdd raw s.nFds ctl).1.fds = s₁.fds ∧
      (s₁.epollAdd raw s.nFds ctl).1.nFds = s₁.nFds := by
    unfold epollAdd
    dsimp only
    split_ifs <;> exact ⟨rfl, rfl⟩
  have hnew : s.fdNew raw events true ctl = if (s₁.epollAdd raw s.nFds ctl).2 then
      (s₁.epollAdd raw s.nFds ctl).1 else (s₁.epollAdd raw s.nFds ctl).1.fdDrop s.nFds := rfl
  rw [hnew]
  split_ifs
  · exact ⟨hfds.2, by rw [hfds.1]; simp [s₁, fd], hadd⟩
  · refine ⟨hfds.2, ?_, fun f hf h => hadd f hf (inInterest_of_fdDrop h)⟩
    rw [(fdDrop_keepsWaker _ _ _).1, hfds.1]
    simp [s₁, fd]

/-- An `Fd` exists before a step unless the step creates it. -/
lemma step_nFds {a : Action V} (h : s.step a = some s') {f : FdId} (hf : f < s'.nFds) :
    f < s.nFds ∨ f = s.nFds ∧ ∃ raw events ctl, a = .fdNew raw events true ctl ∧
      s' = s.fdNew raw events true ctl := by
  rcases (move_of_step h).2.sameInterest with hs | ⟨raw, events, fcntl, ctl, rfl, rfl⟩ | ⟨g, rfl⟩ |
    ⟨hn, -⟩
  · exact .inl (hs.nFds ▸ hf)
  · cases fcntl with
    | false => exact .inl hf
    | true =>
      rw [(fdNew_spec s raw events ctl).1] at hf
      exact (Nat.lt_succ_iff_lt_or_eq.mp hf).imp_right fun heq =>
        ⟨heq, raw, events, ctl, rfl, rfl⟩
  · exact .inl hf
  · exact .inl (hn ▸ hf)

/-- A registration that is in place after a step was so before it, unless the step creates the `Fd`. -/
lemma step_inInterest {a : Action V} (h : s.step a = some s') {f : FdId} (hf : f < s.nFds)
    (hr : s'.inInterest f) : s.inInterest f := by
  rcases (move_of_step h).2.sameInterest with hs | ⟨raw, events, fcntl, ctl, rfl, rfl⟩ | ⟨g, rfl⟩ |
    ⟨-, hnil⟩
  · rwa [inInterest, hs.raw, hs.interest] at hr
  · cases fcntl with
    | false => exact hr
    | true => exact (fdNew_spec s raw events ctl).2.2 f hf hr
  · exact inInterest_of_fdDrop hr
  · simp [inInterest, hnil] at hr

/-! ## Events and flags -/

/-- The step reports some flags for an `Fd` to which it delivers an event. -/
lemma exists_of_delivers {a : Action V} {f : FdId} (h : s.delivers a f = true) :
    ∃ e, .fd f e ∈ s.reported a := by
  simp only [delivers, List.contains_iff_mem, List.mem_map] at h
  obtain ⟨ev, hev, hkey⟩ := h
  cases ev with
  | pipe => simp [EpollEvent.key] at hkey
  | fd g e =>
    obtain rfl : g = f := by simpa [EpollEvent.key] using hkey
    exact ⟨e, hev⟩

/-- The step sets no flags of an `Fd` to which it delivers no event. -/
lemma flagsFor_of_not_delivers {a : Action V} {f : FdId} (h : s.delivers a f = false) :
    flagsFor f (s.reported a) = 0 := by
  refine flagsFor_of_not_mem fun e he => ?_
  have hd : s.delivers a f = true := by
    simp only [delivers, List.contains_iff_mem, List.mem_map]
    exact ⟨_, he, rfl⟩
  simp [h] at hd

/-- A step that delivers an event for an `Fd` calls `epoll_wait`, which goes through all events. -/
lemma waited_of_delivers {f : FdId} {a : Action V} (hs : s.step a = some s') (hp : s'.panicked = none)
    (hd : s.delivers a f = true) : ∃ evs e s₁, Waited (s.yielded a) (.ok evs) s₁ s' ∧ .fd f e ∈ evs ∧
      e ≠ 0 ∧ (evs.map EpollEvent.key).Nodup ∧ (s.yielded a).wakeup evs = .ok s₁ := by
  obtain ⟨e, he⟩ := exists_of_delivers hd
  cases hw : s.waitsWith a with
  | none => simp [reported, hw] at he
  | some k =>
    simp only [reported, hw] at he
    cases k with
    | error k => simp [KernelAnswer.list] at he
    | ok evs =>
      obtain ⟨s₁, hwaited⟩ := waited_of_step hs hp hw
      obtain ⟨hlen, hnodup, hreports, -⟩ := hwaited.answers
      have hevents : (s.yielded a).executor.events ≠ 0 := by
        intro h0
        rw [h0, Nat.le_zero, List.length_eq_zero_iff] at hlen
        simp [hlen, KernelAnswer.list] at he
      have hwait := hwaited.wait
      rw [epollWait, if_neg hevents] at hwait
      exact ⟨evs, e, s₁, hwaited, he, (hreports _ he).1, hnodup,
        hwait.resolve_right (wakeup_ne_err hnodup fun hm => hreports _ hm)⟩

/-- A poll that yields leaves a waker where it is. -/
lemma Parked.yielded {f : FdId} {w : Waker} (h : s.Parked f w) (a : Action V) :
    (s.yielded a).Parked f w := by
  cases a with
  | pollWith g cx k =>
    by_cases hg : f = g
    · subst hg
      exact ⟨by simpa [Thread.yielded, setFd] using h.waker, by simpa [Thread.yielded, setFd] using h.events⟩
    · exact ⟨by simpa [Thread.yielded, setFd, hg] using h.waker,
        by simpa [Thread.yielded, setFd, hg] using h.events⟩
  | _ => exact h

/-- A poll that yields changes nothing but its `Fd`. -/
lemma yielded_frame (s : Thread V) (a : Action V) (t : TaskId) :
    (s.yielded a).alive t = s.alive t ∧ (s.yielded a).tasks = s.tasks ∧ (s.yielded a).log = s.log := by
  cases a <;> exact ⟨rfl, rfl, rfl⟩

/-- A step that delivers an event for a parked `Fd` makes the task runnable whose waker the `Fd` holds. -/
lemma Parked.runnable_of_step {f : FdId} {t : TaskId} {a : Action V} (h : s.Parked f (.task t))
    (hs : s.step a = some s') (hp : s'.panicked = none) (hd : s.delivers a f = true)
    (halive : s.alive t = true) (hc : (s.tasks t).hasCompleted = false) : s'.runnable t := by
  obtain ⟨evs, e, s₁, hwaited, hmem, he, hnodup, hwakeup⟩ := waited_of_delivers hs hp hd
  obtain ⟨halive', htasks, -⟩ := s.yielded_frame a t
  have hrun := (h.yielded a).wakeup hnodup hmem he hwakeup (halive'.trans halive) (by rwa [htasks])
  obtain ⟨s₂, heff, -, -, -, hs'⟩ := hwaited.after
  rw [hs']
  exact heff.runnable hrun

/-- Only a closure that would block clears flags of its `Fd`. -/
lemma polledEw_events {a : Action V} {f : FdId}
    (h : a = .closure .wouldBlock → s.calling ≠ some f) :
    (s.polledEw a f).events = (s.fds f).ew.events := by
  cases a with
  | pollWith g cx k =>
    simp only [polledEw, EpollWaker.pollWithEnter]
    split_ifs <;> rfl
  | closure r =>
    simp only [polledEw]
    split
    · rename_i g cx rest hstack
      split_ifs with hg
      · cases r with
        | wouldBlock => exact absurd (by simp [calling, hstack, hg]) (h rfl)
        | interrupted | done => rfl
      · rfl
    · rfl
  | _ => rfl

/-- A step that makes no call on an `Fd` and runs no closure of it does nothing else to it. -/
lemma polledEw_of_ne {a : Action V} {f : FdId} (hpoll : ∀ cx k, a ≠ .pollWith f cx k)
    (hclosure : ∀ r, a = .closure r → s.calling ≠ some f) : s.polledEw a f = (s.fds f).ew := by
  cases a with
  | pollWith g cx k =>
    have hg : g ≠ f := by
      rintro rfl
      exact hpoll cx k rfl
    simp [polledEw, hg]
  | closure r =>
    simp only [polledEw]
    split
    · rename_i g cx rest hstack
      have hg : g ≠ f := by
        rintro rfl
        exact hclosure r rfl (by simp [calling, hstack])
      simp [hg]
    · rfl
  | _ => rfl

/-- A closure that would block clears all flags of its `Fd`. -/
lemma polledEw_wouldBlock {f : FdId} (h : s.calling = some f) :
    ∃ cx, s.polledEw (.closure .wouldBlock) f = { waker := cx, events := 0, burst := 0 } ∧
      ∃ rest, s.stack = .pollWith f cx :: rest := by
  obtain ⟨cx, rest, hstack⟩ := stack_of_calling h
  exact ⟨cx, by simp [polledEw, hstack, EpollWaker.pollWithReturn], rest, hstack⟩

end Thread

/-- The flags of an event are set. -/
lemma contains_flagsFor {f : FdId} {e : EpollFlags} {evs : List EpollEvent} (h : .fd f e ∈ evs) :
    (flagsFor f evs).contains e = true := by
  rw [EpollFlags.contains_iff]
  intro i hi
  induction evs with
  | nil => simp at h
  | cons ev evs ih =>
    rcases List.mem_cons.mp h with rfl | hrest
    · simp [flagsFor, hi]
    · cases ev with
      | pipe => exact ih hrest
      | fd g e' => simp [flagsFor, ih hrest]

namespace Epoll

variable {V : Type} {p p' : Epoll V}

/-! ## Steps -/

/-- The kernel may report the event: an `Fd` with a queued edge, with all its queued directions. -/
def reports (p : Epoll V) : EpollEvent → Prop
  | .pipe => True
  | .fd f e => p.edge f ≠ 0 ∧ e.contains (p.ready f &&& p.mask f &&& p.edge f) = true

instance (p : Epoll V) : DecidablePred p.reports
  | .pipe => inferInstanceAs (Decidable True)
  | .fd f e => inferInstanceAs
      (Decidable (p.edge f ≠ 0 ∧ e.contains (p.ready f &&& p.mask f &&& p.edge f) = true))

/-- The kernel after the registrations that the step makes: a descriptor that is ready gets an edge, and
nobody waits for it yet. -/
def opened (p : Epoll V) : Action V → Epoll V
  | .fdNew _ events true _ =>
    let f := p.thread.nFds
    let mask := events &&& (EpollFlags.epollIn ||| EpollFlags.epollOut)
    { p with
      mask := Function.update p.mask f mask
      edge := Function.update p.edge f (p.ready f &&& mask)
      parked := Function.update p.parked f none }
  | _ => p

/-- The wakers left by the latest polls, after a step that delivers no event. -/
def parkedAfter (p : Epoll V) (a : Action V) (f : FdId) : Option Waker :=
  match a with
  | .pollWith g cx _ =>
    if g = f then
      match (p.thread.fds f).ew.pollWithEnter cx with
      | .pending _ => some cx
      | _ => none
    else
      p.parked f
  | .closure r =>
    match p.thread.stack with
    | .pollWith g cx :: _ =>
      if g = f then
        match r with
        | .interrupted => p.parked f
        | .wouldBlock => some cx
        | .done => none
      else
        p.parked f
    | _ => p.parked f
  | a => (p.opened a).parked f

/-- A step of the thread. -/
def threadStep (p : Epoll V) (a : Action V) : Option (Epoll V) :=
  if ∀ ev ∈ p.thread.reported a, p.reports ev then
    (p.thread.step a).map fun s' =>
      { p.opened a with
        thread := s'
        edge := fun f => if p.thread.delivers a f then 0 else (p.opened a).edge f
        parked := fun f => if p.thread.delivers a f then none else p.parkedAfter a f }
  else
    none

/-- A step of the thread, or of a descriptor. -/
def step (p : Epoll V) : EpollAction V → Option (Epoll V)
  | .thread (.closure .wouldBlock) => none
  | .thread a => p.threadStep a
  | .wouldBlock d =>
    match p.thread.calling with
    | some f =>
      if p.ready f &&& d &&& ~~~p.edge f = 0 then p.threadStep (.closure .wouldBlock) else none
    | none => none
  | .arrive f d => some { p with
      ready := Function.update p.ready f (p.ready f ||| d)
      edge := Function.update p.edge f (p.edge f ||| (d &&& ~~~p.ready f &&& p.mask f)) }
  | .recede f d => some { p with ready := Function.update p.ready f (p.ready f &&& ~~~d) }
  | .notify f d => some { p with edge := Function.update p.edge f (p.edge f ||| (d &&& p.mask f)) }
  | .forget f d =>
    if p.ready f &&& d = 0 then
      some { p with edge := Function.update p.edge f (p.edge f &&& ~~~d) }
    else
      none
  | .lose f =>
    if p.thread.inInterest f then none else some { p with edge := Function.update p.edge f 0 }

/-- A thread at its start; its descriptors may be ready. -/
def IsStart (p : Epoll V) : Prop :=
  p.thread.IsStart ∧ p.mask = 0 ∧ p.edge = 0 ∧ p.parked = fun _ => none

/-- A step of the thread, with all that is known of it. -/
lemma threadStep_eq_some {a : Action V} (h : p.threadStep a = some p') :
    (∀ ev ∈ p.thread.reported a, p.reports ev) ∧ p.thread.step a = some p'.thread ∧
      p' = { p.opened a with
        thread := p'.thread
        edge := fun f => if p.thread.delivers a f then 0 else (p.opened a).edge f
        parked := fun f => if p.thread.delivers a f then none else p.parkedAfter a f } := by
  unfold threadStep at h
  split_ifs at h with hk
  obtain ⟨s', hs, rfl⟩ := Option.map_eq_some_iff.mp h
  exact ⟨hk, hs, rfl⟩

/-- A step is one of the thread, or one of a descriptor that leaves the thread alone. -/
lemma step_cases {b : EpollAction V} (h : p.step b = some p') :
    (∃ a, (b = .thread a ∧ a ≠ .closure .wouldBlock ∨ ∃ d f, b = .wouldBlock d ∧
        a = .closure .wouldBlock ∧ p.thread.calling = some f ∧
          p.ready f &&& d &&& ~~~p.edge f = 0) ∧ p.threadStep a = some p') ∨
      (∀ a, b ≠ .thread a) ∧ (∀ d, b ≠ .wouldBlock d) ∧
        p'.thread = p.thread ∧ p'.mask = p.mask ∧ p'.parked = p.parked := by
  cases b with
  | thread a =>
    refine .inl ⟨a, .inl ⟨rfl, ?_⟩, ?_⟩
    · rintro rfl
      simp [step] at h
    · cases a with
      | closure r =>
        cases r with
        | wouldBlock => simp [step] at h
        | _ => exact h
      | _ => exact h
  | wouldBlock d =>
    simp only [step] at h
    split at h
    · rename_i f hf
      split_ifs at h with hd
      exact .inl ⟨_, .inr ⟨d, f, rfl, rfl, hf, hd⟩, h⟩
    · simp at h
  | arrive f d | recede f d | notify f d =>
    obtain rfl := Option.some.inj h
    exact .inr ⟨by simp, by simp, rfl, rfl, rfl⟩
  | forget f d =>
    simp only [step] at h
    split_ifs at h
    obtain rfl := Option.some.inj h
    exact .inr ⟨by simp, by simp, rfl, rfl, rfl⟩
  | lose f =>
    simp only [step] at h
    split_ifs at h
    obtain rfl := Option.some.inj h
    exact .inr ⟨by simp, by simp, rfl, rfl, rfl⟩

/-- The thread of a reachable state is reachable. -/
lemma reachable_thread {C : Epoll V → EpollAction V → Prop} (h : ReachableUnder step IsStart C p) :
    Reachable Thread.step Thread.IsStart p.thread := by
  induction h with
  | init h => exact .init h.1
  | next _ _ hs ih =>
    rcases step_cases hs with ⟨a, -, ha⟩ | ⟨-, -, hthread, -⟩
    · exact .next ih trivial (threadStep_eq_some ha).2.1
    · rwa [hthread]

/-! ## Readiness is remembered -/

/-- Every registered direction in which the descriptor is ready without a queued edge is among the
events. -/
def Remembers (p : Epoll V) (f : FdId) : Prop :=
  (p.thread.fds f).ew.events.contains (p.ready f &&& p.mask f &&& ~~~p.edge f) = true

/-- Whenever a closure of the `Fd` returns `WouldBlock`, every other direction that is registered has an
edge queued or is not ready. -/
def KeepsOthers (f : FdId) (p : Epoll V) : EpollAction V → Prop
  | .wouldBlock d =>
    p.thread.calling = some f → p.ready f &&& p.mask f &&& ~~~p.edge f &&& ~~~d = 0
  | _ => True

instance (f : FdId) (p : Epoll V) (b : EpollAction V) : Decidable (KeepsOthers f p b) := by
  unfold KeepsOthers
  split <;> infer_instance

/-- The flags that have to be remembered, one by one. -/
lemma contains_unqueued_iff {e r m q : EpollFlags} : e.contains (r &&& m &&& ~~~q) = true ↔
    ∀ i, r.getLsbD i = true → m.getLsbD i = true → q.getLsbD i = false → e.getLsbD i = true := by
  rw [EpollFlags.contains_iff]
  refine forall_congr' fun i => ?_
  have hlt : r.getLsbD i = true → i < 32 := fun h => BitVec.lt_of_getLsbD h
  simp only [BitVec.getLsbD_and, BitVec.getLsbD_not, Bool.and_eq_true, decide_eq_true_eq,
    Bool.not_eq_true']
  grind

/-- Two sets of flags have none in common, one by one. -/
lemma and_eq_zero_iff {x y : EpollFlags} :
    x &&& y = 0 ↔ ∀ i, x.getLsbD i = true → y.getLsbD i = false := by
  rw [EpollFlags.eq_zero_iff]
  refine forall_congr' fun i => ?_
  simp

/-- What happens to a descriptor does not make the `Fd` forget its readiness. -/
lemma Remembers.kernel {b : EpollAction V} {f : FdId} (hm : p.Remembers f) (h : p.step b = some p')
    (hthread : p'.thread = p.thread) (hb : ∀ a, b ≠ .thread a) (hb' : ∀ d, b ≠ .wouldBlock d)
    (hreg : p.thread.inInterest f) : p'.Remembers f := by
  rw [Remembers, contains_unqueued_iff] at hm ⊢
  rw [hthread]
  cases b with
  | thread a => exact absurd rfl (hb a)
  | wouldBlock d => exact absurd rfl (hb' d)
  | arrive g d =>
    obtain rfl := Option.some.inj h
    by_cases hg : f = g
    · subst hg
      simp only [Function.update_self, BitVec.getLsbD_or, BitVec.getLsbD_and, BitVec.getLsbD_not]
      intro i hr hmask hq
      have hlt : i < 32 := BitVec.lt_of_getLsbD hmask
      refine hm i ?_ hmask ?_ <;> grind
    · simpa [hg] using hm
  | recede g d =>
    obtain rfl := Option.some.inj h
    by_cases hg : f = g
    · subst hg
      simp only [Function.update_self, BitVec.getLsbD_and, Bool.and_eq_true]
      exact fun i hr => hm i hr.1
    · simpa [hg] using hm
  | notify g d =>
    obtain rfl := Option.some.inj h
    by_cases hg : f = g
    · subst hg
      simp only [Function.update_self, BitVec.getLsbD_or, Bool.or_eq_false_iff]
      exact fun i hr hmask hq => hm i hr hmask hq.1
    · simpa [hg] using hm
  | forget g d =>
    simp only [step] at h
    split_ifs at h with hd
    obtain rfl := Option.some.inj h
    by_cases hg : f = g
    · subst hg
      rw [and_eq_zero_iff] at hd
      simp only [Function.update_self, BitVec.getLsbD_and, BitVec.getLsbD_not]
      intro i hr hmask hq
      have hlt : i < 32 := BitVec.lt_of_getLsbD hmask
      refine hm i hr hmask ?_
      simpa only [hd i hr, hlt, decide_true, Bool.not_false, Bool.and_true] using hq
    · simpa [hg] using hm
  | lose g =>
    simp only [step] at h
    split_ifs at h with hg
    obtain rfl := Option.some.inj h
    have hne : f ≠ g := by
      rintro rfl
      exact hg hreg
    simpa [hne] using hm

/-- Registering a new `Fd` leaves the others alone. -/
lemma opened_eq {a : Action V} {f : FdId} (hf : f ≠ p.thread.nFds) :
    (p.opened a).mask f = p.mask f ∧ (p.opened a).edge f = p.edge f ∧
      (p.opened a).ready f = p.ready f := by
  unfold opened
  split
  · simp [hf]
  · exact ⟨rfl, rfl, rfl⟩

/-- A step of the thread does not make an `Fd` forget its readiness, unless a closure of this `Fd` would
block while the `Fd` is ready without a queued edge. -/
lemma Remembers.threadStep {a : Action V} {f : FdId} (hm : p.Remembers f)
    (h : p.threadStep a = some p') (hp : p'.thread.panicked = none) (hf : f < p.thread.nFds)
    (hblock : a = .closure .wouldBlock → p.thread.calling = some f →
      p.ready f &&& p.mask f &&& ~~~p.edge f = 0) : p'.Remembers f := by
  obtain ⟨hk, hs, heq⟩ := threadStep_eq_some h
  have hew := Thread.step_ew hs hp fun _ _ _ _ => hf.ne
  obtain ⟨hmask, hedge, hready⟩ := opened_eq (p := p) (a := a) hf.ne
  have hready' : p'.ready f = p.ready f := by rw [heq]; exact hready
  have hmask' : p'.mask f = p.mask f := by rw [heq]; exact hmask
  have hedge' : p'.edge f = if p.thread.delivers a f then 0 else p.edge f := by
    rw [heq]
    simp only [hedge]
  rw [Remembers, hready', hmask', hedge', hew, contains_unqueued_iff]
  by_cases hb : a = .closure .wouldBlock ∧ p.thread.calling = some f
  · -- The flags are cleared, but there is nothing to remember.
    obtain ⟨rfl, hc⟩ := hb
    have hnot : p.thread.delivers (.closure .wouldBlock) f = false := rfl
    have hzero := EpollFlags.eq_zero_iff.mp (hblock rfl hc)
    intro i hr hmi hq
    have hlt : i < 32 := BitVec.lt_of_getLsbD hr
    have hq' : (p.edge f).getLsbD i = false := by
      simpa only [hnot, Bool.false_eq_true, if_false] using hq
    have hi := hzero i
    simp only [BitVec.getLsbD_and, BitVec.getLsbD_not, hr, hmi, hq', hlt] at hi
    exact absurd hi (by decide)
  · have hevents := Thread.polledEw_events (s := p.thread) (a := a) (f := f) fun ha hc => hb ⟨ha, hc⟩
    rw [Remembers, contains_unqueued_iff] at hm
    intro i hr hmi hq
    simp only [EpollWaker.flag, BitVec.getLsbD_or, Bool.or_eq_true, hevents]
    by_cases hq' : (p.edge f).getLsbD i = false
    · exact .inl (hm i hr hmi hq')
    · -- The edge has been delivered.
      right
      have hd : p.thread.delivers a f = true := by
        by_contra hd
        rw [if_neg hd] at hq
        exact hq' hq
      obtain ⟨e, he⟩ := Thread.exists_of_delivers hd
      have hcontains := EpollFlags.contains_iff.mp (hk _ he).2 i
      refine EpollFlags.contains_iff.mp (contains_flagsFor he) i (hcontains ?_)
      simp [hr, hmi, hq']

/-- Every step that keeps the readiness of the other directions makes an `Fd` remember its readiness as
long as it is registered. -/
lemma remembers_step {b : EpollAction V} (h : p.step b = some p') (hp : p'.thread.panicked = none)
    {f : FdId} (hC : KeepsOthers f p b) (hf : f < p'.thread.nFds) (hreg : p'.thread.inInterest f)
    (hm : f < p.thread.nFds → p.thread.inInterest f → p.Remembers f) : p'.Remembers f := by
  rcases step_cases h with ⟨a, hb, ha⟩ | ⟨hb, hb', hthread, -, -⟩
  · obtain ⟨hk, hs, heq⟩ := threadStep_eq_some ha
    rcases Thread.step_nFds hs hf with hlt | ⟨rfl, raw, events, ctl, rfl, hs'⟩
    · refine (hm hlt (Thread.step_inInterest hs hlt hreg)).threadStep ha hp hlt fun hwb hc => ?_
      rcases hb with ⟨-, hne⟩ | ⟨d, g, rfl, -, hg, hd⟩
      · exact absurd hwb hne
      · obtain rfl : f = g := Option.some.inj (hc.symm.trans hg)
        have hothers := EpollFlags.eq_zero_iff.mp (hC hc)
        have hthis := EpollFlags.eq_zero_iff.mp hd
        refine EpollFlags.eq_zero_iff.mpr fun i => ?_
        have h1 := hothers i
        have h2 := hthis i
        simp only [BitVec.getLsbD_and, BitVec.getLsbD_not] at h1 h2 ⊢
        grind
    · -- A new `Fd` assumes that it is ready.
      have hew := (p.thread.fdNew_spec raw events ctl).2.1
      rw [← hs'] at hew
      rw [Remembers, hew, contains_unqueued_iff]
      have hmask : p'.mask p.thread.nFds =
          events &&& (EpollFlags.epollIn ||| EpollFlags.epollOut) := by
        rw [heq]
        simp [opened]
      rw [hmask]
      exact fun i _ hi _ => hi
  · exact (hm (hthread ▸ hf) (hthread ▸ hreg)).kernel h hthread hb hb' (hthread ▸ hreg)

/-- In a run whose steps keep the readiness of the other directions of an `Fd`, the `Fd` remembers its
readiness as long as it is registered. -/
lemma remembers_of_reachable {f : FdId} (h : ReachableUnder step IsStart (KeepsOthers f) p)
    (hp : p.thread.panicked = none) (hf : f < p.thread.nFds) (hreg : p.thread.inInterest f) :
    p.Remembers f := by
  refine h.invariant (P := fun p => p.thread.panicked = none → f < p.thread.nFds →
    p.thread.inInterest f → p.Remembers f) ?_ ?_ hp hf hreg
  · rintro p ⟨⟨pipeWr, pipeCapacity, -, hstart⟩, -, -, -⟩ - hf -
    simp [hstart, Thread.start] at hf
  · intro p b p' _ ih hC hs hp hf hreg
    refine remembers_step hs hp hC hf hreg (ih ?_)
    rcases step_cases hs with ⟨a, -, ha⟩ | ⟨-, -, hthread, -, -⟩
    · exact (Thread.move_of_step (threadStep_eq_some ha).2.1).1
    · exact hthread ▸ hp

/-- An `Fd` that remembers a readiness without a queued edge has events. -/
lemma Remembers.events_ne_zero {f : FdId} (hm : p.Remembers f) (hready : p.ready f &&& p.mask f ≠ 0)
    (hedge : p.edge f = 0) : (p.thread.fds f).ew.events ≠ 0 := by
  intro hzero
  rw [Remembers, hzero, hedge, contains_unqueued_iff] at hm
  refine hready (and_eq_zero_iff.mpr fun i hr => ?_)
  by_contra hmi
  simpa using hm i hr (by simpa using hmi) (by simp)

/-! ## Parked wakers -/

/-- The waker that is noted for an `Fd` is the one that it holds, and it has no events. -/
def ParkedOk (p : Epoll V) : Prop :=
  ∀ f w, p.parked f = some w → p.thread.Parked f w

/-- A poll that leaves a waker leaves the `Fd` without events. -/
lemma polledEw_of_parkedAfter {a : Action V} {f : FdId} {w : Waker} (h : p.parkedAfter a f = some w)
    (hold : p.parked f = some w → p.thread.Parked f w) :
    (p.thread.polledEw a f).waker = w ∧ (p.thread.polledEw a f).events = 0 := by
  have hkeep : p.parked f = some w →
      (p.thread.fds f).ew.waker = w ∧ (p.thread.fds f).ew.events = 0 := fun h =>
    ⟨(hold h).waker, (hold h).events⟩
  cases a with
  | pollWith g cx k =>
    simp only [parkedAfter, Thread.polledEw] at h ⊢
    split_ifs at h ⊢ with hg
    · simp only [EpollWaker.pollWithEnter] at h ⊢
      split_ifs at h ⊢ with hev hb
      obtain rfl := Option.some.inj h
      exact ⟨rfl, hev⟩
    · exact hkeep h
  | closure r =>
    simp only [parkedAfter, Thread.polledEw] at h ⊢
    cases hstack : p.thread.stack with
    | nil =>
      simp only [hstack] at h
      exact hkeep h
    | cons g rest =>
      simp only [hstack] at h
      cases g with
      | pollWith g cx =>
        simp only at h ⊢
        split_ifs at h ⊢ with hg
        · cases r with
          | interrupted => exact hkeep h
          | wouldBlock =>
            obtain rfl := Option.some.inj h
            exact ⟨rfl, rfl⟩
          | done => simp at h
        · exact hkeep h
      | _ => exact hkeep h
  | fdNew raw events fcntl ctl =>
    refine hkeep ?_
    simp only [parkedAfter, opened] at h
    split at h
    · by_cases hf : f = p.thread.nFds
      · simp [hf] at h
      · simpa [hf] using h
    · exact h
  | _ => exact hkeep h

/-- A new `Fd` has no waker noted. -/
lemma ne_nFds_of_parkedAfter {raw : RawFd} {events : EpollFlags} {ctl : Bool} {f : FdId} {w : Waker}
    (h : p.parkedAfter (.fdNew raw events true ctl) f = some w) : f ≠ p.thread.nFds := by
  rintro rfl
  simp [parkedAfter, opened] at h

/-- Every step keeps the noted wakers with their `Fd`s. -/
lemma parkedOk_step {b : EpollAction V} (h : p.step b = some p') (hp : p'.thread.panicked = none)
    (hok : p.ParkedOk) : p'.ParkedOk := by
  intro f w hw
  rcases step_cases h with ⟨a, -, ha⟩ | ⟨-, -, hthread, -, hparked⟩
  · obtain ⟨-, hs, heq⟩ := threadStep_eq_some ha
    rw [heq] at hw
    simp only [Option.ite_none_left_eq_some, Bool.not_eq_true] at hw
    obtain ⟨hd, hw⟩ := hw
    have hew := Thread.step_ew hs hp (f := f) fun raw events ctl ha => by
      subst ha
      exact ne_nFds_of_parkedAfter hw
    rw [Thread.flagsFor_of_not_delivers hd] at hew
    obtain ⟨hwaker, hevents⟩ := polledEw_of_parkedAfter hw (hok f w)
    refine ⟨?_, ?_⟩
    · rw [hew]
      exact hwaker
    · rw [hew]
      simp [EpollWaker.flag, hevents]
  · rw [hthread]
    exact hok f w (hparked ▸ hw)

/-- In every reachable state that has not panicked the noted wakers are with their `Fd`s. -/
lemma parkedOk_of_reachable {C : Epoll V → EpollAction V → Prop}
    (h : ReachableUnder step IsStart C p) (hp : p.thread.panicked = none) : p.ParkedOk := by
  refine h.invariant (P := fun p => p.thread.panicked = none → p.ParkedOk) ?_ ?_ hp
  · rintro p ⟨-, -, -, hparked⟩ - f w hw
    simp [hparked] at hw
  · intro p b p' _ ih _ hs hp
    refine parkedOk_step hs hp (ih ?_)
    rcases step_cases hs with ⟨a, -, ha⟩ | ⟨-, -, hthread, -, -⟩
    · exact (Thread.move_of_step (threadStep_eq_some ha).2.1).1
    · exact hthread ▸ hp

/-! ## `Fd`s registered for one direction -/

/-- The closures of the `Fd` do operations in the direction that it is registered for, so that they return
`WouldBlock` only if the descriptor was not ready when they tried. -/
def OneDirection (f : FdId) (p : Epoll V) : EpollAction V → Prop
  | .wouldBlock d => p.thread.calling = some f → d = p.mask f
  | _ => True

instance (f : FdId) (p : Epoll V) (b : EpollAction V) : Decidable (OneDirection f p b) := by
  unfold OneDirection
  split <;> infer_instance

/-- There is no other direction. -/
lemma OneDirection.keepsOthers {f : FdId} {b : EpollAction V} (h : OneDirection f p b) :
    KeepsOthers f p b := by
  cases b with
  | wouldBlock d =>
    intro hc
    rw [h hc, EpollFlags.eq_zero_iff]
    intro i
    simp only [BitVec.getLsbD_and, BitVec.getLsbD_not]
    grind
  | _ => trivial

/-- The readiness of an `Fd` that is registered for one direction is not forgotten: whenever the descriptor
is ready and no edge is queued, the `Fd` has events.  A waker that a poll has left with it stays there, with
no events, and the step that delivers an event for it makes its task runnable unless the task has completed.
So no task stays parked on a descriptor that is ready with no edge to come. -/
theorem readiness_not_forgotten {f : FdId} (h : ReachableUnder step IsStart (OneDirection f) p)
    (hp : p.thread.panicked = none) (hf : f < p.thread.nFds) (hreg : p.thread.inInterest f) :
    (p.ready f &&& p.mask f ≠ 0 → p.edge f = 0 → (p.thread.fds f).ew.events ≠ 0) ∧
    ∀ w, p.parked f = some w → p.thread.Parked f w ∧ (p.ready f &&& p.mask f ≠ 0 → p.edge f ≠ 0) ∧
      ∀ a p' t, w = .task t → p.step (.thread a) = some p' → p'.thread.panicked = none →
        p.thread.delivers a f = true → p.thread.alive t = true →
          (p.thread.tasks t).hasCompleted = false → p'.thread.runnable t := by
  have hm := remembers_of_reachable (h.mono fun _ _ => OneDirection.keepsOthers) hp hf hreg
  refine ⟨hm.events_ne_zero, fun w hw => ?_⟩
  have hparked := parkedOk_of_reachable h hp f w hw
  refine ⟨hparked, fun hready hedge => hm.events_ne_zero hready hedge hparked.events, ?_⟩
  rintro a p' t rfl hs hp' hd halive hc
  rcases step_cases hs with ⟨b, hb, ha⟩ | ⟨hb, -⟩
  · obtain ⟨rfl, -⟩ : a = b ∧ _ := by simpa using hb
    exact hparked.runnable_of_step (threadStep_eq_some ha).2.1 hp' hd halive hc
  · exact absurd rfl (hb a)

/-- A thread at its start and no readiness. -/
def start (V : Type) : Epoll V where
  thread := Thread.start V 3 16
  ready _ := 0
  mask _ := 0
  edge _ := 0
  parked _ := none

/-- A state with a property that is reached by executing a sequence of actions. -/
lemma exists_reachableUnder (C : Epoll V → EpollAction V → Prop) [∀ p b, Decidable (C p b)]
    (actions : List (EpollAction V)) (P : Epoll V → Bool)
    (hP : (exec step (fun p b => decide (C p b)) (start V) actions).any P = true) :
    ∃ p : Epoll V, ReachableUnder step IsStart C p ∧ P p = true :=
  ReachableUnder.exists_run _ _
    ⟨⟨3, 16, by decide, rfl⟩, rfl, rfl, rfl⟩ actions hP

/-- A task waits for an `Fd` to become readable, which it does while `run` waits for events. -/
theorem readiness_not_forgotten_by_reader : ∃ p p' : Epoll Unit,
    ReachableUnder step IsStart (OneDirection 0) p ∧ p.parked 0 = some (.task 0) ∧
      p.thread.queues.home 0 = some (0, .sleepq) ∧ p.edge 0 ≠ 0 ∧
        p.step (.thread (.go (.ok [.fd 0 1]))) = some p' ∧ p'.thread.runnable 0 := by
  obtain ⟨p, hp, h⟩ := exists_reachableUnder (V := Unit) (OneDirection 0)
    [.thread (.spawn .normal), .thread .run, .thread (.go (.ok [])), .thread (.fdNew 7 1 true true),
      .thread (.pollWith 0 (.task 0) (.ok [])), .wouldBlock 1, .thread .pending,
      .thread (.go (.ok [])), .thread (.go (.ok [])), .thread (.go (.ok [])), .thread (.go (.ok [])),
      .thread (.go (.ok [])), .arrive 0 1]
    (fun p => (p.step (.thread (.go (.ok [.fd 0 1])))).any fun p' : Epoll Unit => decide (
      p.thread.panicked = none ∧ 0 < p.thread.nFds ∧ p.thread.inInterest 0 ∧
        p.parked 0 = some (.task 0) ∧ p.ready 0 &&& p.mask 0 ≠ 0 ∧
          p.thread.queues.home 0 = some (0, .sleepq) ∧ p'.thread.panicked = none ∧
            p.thread.delivers (.go (.ok [.fd 0 1])) 0 = true ∧ p.thread.alive 0 = true ∧
              (p.thread.tasks 0).hasCompleted = false)) (by decide)
  obtain ⟨p', hs, h⟩ := (Option.any_eq_true _ _).mp h
  obtain ⟨hn, hf, hreg, hparked, hready, hhome, hn', hd, halive, hc⟩ := of_decide_eq_true h
  obtain ⟨-, hwaits⟩ := readiness_not_forgotten hp hn hf hreg
  obtain ⟨-, hedge, hserved⟩ := hwaits _ hparked
  exact ⟨p, p', hp, hparked, hhome, hedge hready, hs, hserved _ p' 0 rfl hs hn' hd halive hc⟩

/-! ## `Fd`s registered for both directions -/

/-- In every run in which the closures of an `Fd` return `WouldBlock` only when every other registered
direction has an edge queued or is not ready, every registered direction in which the descriptor is ready
without a queued edge is among the events of the `Fd`. -/
theorem direction_not_discarded {f : FdId} (h : ReachableUnder step IsStart (KeepsOthers f) p)
    (hp : p.thread.panicked = none) (hf : f < p.thread.nFds) (hreg : p.thread.inInterest f) :
    (p.thread.fds f).ew.events.contains (p.ready f &&& p.mask f &&& ~~~p.edge f) = true :=
  remembers_of_reachable h hp hf hreg

/-- A step in which a closure returns `WouldBlock` leaves the readiness of its `Fd` remembered exactly if
every other registered direction has an edge queued or is not ready. -/
theorem remembers_iff {d : EpollFlags} {f : FdId} (h : p.step (.wouldBlock d) = some p')
    (hp : p'.thread.panicked = none) (hf : p.thread.calling = some f) :
    (p'.thread.fds f).ew.events.contains (p'.ready f &&& p'.mask f &&& ~~~p'.edge f) = true ↔
      p.ready f &&& p.mask f &&& ~~~p.edge f &&& ~~~d = 0 := by
  rcases step_cases h with ⟨a, hb, ha⟩ | ⟨-, hb, -⟩
  · obtain ⟨d', g, hd', rfl, hg, hd⟩ := hb.resolve_left (by simp)
    obtain rfl := EpollAction.wouldBlock.inj hd'
    obtain rfl : f = g := Option.some.inj (hf.symm.trans hg)
    obtain ⟨-, hs, heq⟩ := threadStep_eq_some ha
    obtain ⟨cx, hpolled, -⟩ := Thread.polledEw_wouldBlock hf
    have hew := Thread.step_ew hs hp (f := f) fun _ _ _ h => by simp at h
    have hevents : (p'.thread.fds f).ew.events = 0 := by
      rw [hew, hpolled]
      simp [EpollWaker.flag, Thread.reported, Thread.waitsWith, flagsFor]
    have hsame : p'.ready f = p.ready f ∧ p'.mask f = p.mask f ∧ p'.edge f = p.edge f := by
      rw [heq]
      exact ⟨rfl, rfl, rfl⟩
    rw [hevents, hsame.1, hsame.2.1, hsame.2.2, contains_unqueued_iff, EpollFlags.eq_zero_iff]
    rw [EpollFlags.eq_zero_iff] at hd
    refine forall_congr' fun i => ?_
    have hi := hd i
    have hbound : (p.ready f).getLsbD i = true → i < 32 := fun h => BitVec.lt_of_getLsbD h
    simp only [BitVec.getLsbD_and, BitVec.getLsbD_not] at hi ⊢
    grind
  · exact absurd rfl (hb d)

/-- A task reads from an `Fd` that is registered for both directions and can be read from. -/
theorem direction_not_discarded_by_reader : ∃ p : Epoll Unit,
    ReachableUnder step IsStart (KeepsOthers 0) p ∧ p.mask 0 = 5 ∧ p.ready 0 = 1 ∧ p.edge 0 = 0 ∧
      (p.thread.fds 0).ew.events.contains 1 = true := by
  obtain ⟨p, hp, h⟩ := exists_reachableUnder (V := Unit) (KeepsOthers 0)
    [.thread (.spawn .normal), .thread .run, .thread (.go (.ok [])), .thread (.fdNew 7 5 true true),
      .thread (.pollWith 0 (.task 0) (.ok [])), .wouldBlock 1, .arrive 0 1, .thread .pending,
      .thread (.go (.ok [])), .thread (.go (.ok [])), .thread (.go (.ok [.fd 0 1])),
      .thread (.go (.ok [])), .thread (.pollWith 0 (.task 0) (.ok [])), .thread (.closure .done)]
    (fun p => decide (p.thread.panicked = none ∧ 0 < p.thread.nFds ∧ p.thread.inInterest 0 ∧
      p.mask 0 = 5 ∧ p.ready 0 = 1 ∧ p.edge 0 = 0)) (by decide)
  obtain ⟨hn, hf, hreg, hmask, hready, hedge⟩ := of_decide_eq_true h
  have hevents := direction_not_discarded hp hn hf hreg
  rw [hmask, hready, hedge] at hevents
  exact ⟨p, hp, hmask, hready, hedge, hevents⟩

/-- A task that can write to a descriptor tries to read from it, gives this up and then waits to write:
it sleeps in `epoll_wait(EpollTimeout::NONE)` although it could write, and no edge is queued. -/
theorem direction_discarded : ∃ p : Epoll Unit, Reachable step IsStart p ∧
    p.thread.stack = [.run .waitNone, .user] ∧ p.thread.panicked = none ∧ p.thread.inInterest 0 ∧
      p.mask 0 = EpollFlags.epollIn ||| EpollFlags.epollOut ∧ p.ready 0 = EpollFlags.epollOut ∧
        p.edge 0 = 0 ∧ (p.thread.fds 0).ew.events = 0 ∧ p.parked 0 = some (.task 0) ∧
          p.thread.queues.home 0 = some (0, .sleepq) := by
  obtain ⟨p, hp, h⟩ := exists_reachableUnder (V := Unit) (fun _ _ => True)
    [.arrive 0 4, .thread (.spawn .normal), .thread .run, .thread (.go (.ok [])),
      .thread (.fdNew 7 5 true true), .thread (.wake (.task 0) (.ok [.fd 0 4])), .thread .pending,
      .thread (.go (.ok [])), .thread (.go (.ok [])), .thread (.go (.ok [])), .thread (.go (.ok [])),
      .thread (.pollWith 0 (.task 0) (.ok [])), .wouldBlock 1,
      .thread (.pollWith 0 (.task 0) (.ok [])), .thread .pending,
      .thread (.go (.ok [])), .thread (.go (.ok [])), .thread (.go (.ok [])), .thread (.go (.ok [])),
      .thread (.go (.ok []))]
    (fun p => decide (p.thread.stack = [.run .waitNone, .user] ∧ p.thread.panicked = none ∧
      p.thread.inInterest 0 ∧ p.mask 0 = EpollFlags.epollIn ||| EpollFlags.epollOut ∧
        p.ready 0 = EpollFlags.epollOut ∧ p.edge 0 = 0 ∧ (p.thread.fds 0).ew.events = 0 ∧
          p.parked 0 = some (.task 0) ∧ p.thread.queues.home 0 = some (0, .sleepq))) (by decide)
  exact ⟨p, hp, of_decide_eq_true h⟩

end Epoll

end Epox

import Epox.Executor.Data
import Epox.Foundation.History
import Epox.Foundation.Transition

/-!
# Joining a thread

The protocol between a thread started by `thread::spawn` and the polls of its `JoinFuture`.  They share
`Mutex<State>`: a poll that finds `State::Running` stores its waker there, and the thread, after its
closure has returned, replaces it by `State::Complete` and wakes the waker that it took out.  A poll that
finds `State::Complete` takes the join handle and waits for the thread to exit, still holding the lock.

Each access to the mutex is one step; between them the two sides proceed in any order.  The wakers are
arbitrary; cloning one does not panic.
-/

namespace Epox

/-- `enum State`. -/
inductive JoinState
  | running (waker : Waker)
  | complete
  deriving DecidableEq

/-- Where the thread is: `V` are the values of its closure, `P` the payloads of panics. -/
inductive ThreadBody (V P : Type)
  /-- In the closure. -/
  | closure
  /-- The closure has returned: the state comes next. -/
  | returned (val : V)
  /-- The state has been replaced: the waker comes next. -/
  | waking (waker : Waker) (val : V)
  /-- The wake has returned. -/
  | leaving (val : V)
  /-- The thread has exited; the result is the one of `JoinHandle::join`. -/
  | exited (result : Except P V)
  deriving DecidableEq

/-- The value that the thread carries. -/
def ThreadBody.value {V P : Type} : ThreadBody V P → Option V
  | .closure | .exited (.error _) => none
  | .returned v | .waking _ v | .leaving v | .exited (.ok v) => some v

/-- Where the poller is. -/
inductive JoinPc
  /-- No poll is in progress. -/
  | idle
  /-- A poll has been called: the lock comes next. -/
  | called (waker : Waker)
  /-- In `JoinHandle::join`. -/
  | joining
  deriving DecidableEq

/-- What has happened. -/
inductive JoinEvent (V P : Type)
  | called (waker : Waker)
  /-- The poll with the waker returned `Poll::Pending`. -/
  | pending (waker : Waker)
  /-- A poll found `State::Complete` and took the join handle. -/
  | took
  /-- A poll returned `Poll::Ready`. -/
  | ready (result : Except P V)
  /-- A poll panicked: "future polled after completion". -/
  | polledAgain
  | returned (val : V)
  | unwound (payload : P)
  /-- The state was replaced by `State::Complete`. -/
  | completed
  | woken (waker : Waker)
  deriving DecidableEq

/-- A thread and its `JoinFuture`. -/
structure Join (V P : Type) where
  state : JoinState
  /-- `Handle::join_handle` is `Some`. -/
  joinHandle : Bool
  body : ThreadBody V P
  pc : JoinPc
  log : List (JoinEvent V P)

namespace Join

variable {V P : Type} {s s' : Join V P}

/-- `spawn_with_builder`. -/
def start (V P : Type) : Join V P where
  state := .running .noop
  joinHandle := true
  body := .closure
  pc := .idle
  log := []

/-- Record what has happened. -/
def emit (s : Join V P) (e : JoinEvent V P) : Join V P := { s with log := e :: s.log }

/-! ## Steps -/

/-- Who takes the next step, and what the environment decides about it. -/
inductive Action (V P : Type)
  /-- `JoinFuture::poll` is called with a waker. -/
  | poll (waker : Waker)
  /-- The poll takes the lock. -/
  | lock
  /-- `JoinHandle::join` returns. -/
  | join
  /-- The closure returns. -/
  | returns (val : V)
  /-- The closure unwinds. -/
  | unwinds (payload : P)
  /-- The thread replaces the state. -/
  | complete
  /-- The thread wakes the waker, which may panic. -/
  | wake (panics : Option P)
  /-- The thread exits. -/
  | exit

/-- The critical section of `JoinFuture::poll`. -/
def lock (s : Join V P) (w : Waker) : Join V P :=
  match s.state with
  | .running _ => emit { s with state := .running w, pc := .idle } (.pending w)
  | .complete =>
    if s.joinHandle then
      emit { s with joinHandle := false, pc := .joining } .took
    else
      emit { s with pc := .idle } .polledAgain

/-- One step. -/
def step (s : Join V P) : Action V P → Option (Join V P)
  | .poll w =>
    match s.pc with
    | .idle => some (emit { s with pc := .called w } (.called w))
    | _ => none
  | .lock =>
    match s.pc with
    | .called w => some (s.lock w)
    | _ => none
  | .join =>
    match s.pc, s.body with
    | .joining, .exited r => some (emit { s with pc := .idle } (.ready r))
    | _, _ => none
  | .returns v =>
    match s.body with
    | .closure => some (emit { s with body := .returned v } (.returned v))
    | _ => none
  | .unwinds p =>
    match s.body with
    | .closure => some (emit { s with body := .exited (.error p) } (.unwound p))
    | _ => none
  | .complete =>
    match s.body, s.state with
    | .returned v, .running w =>
      some (emit { s with state := .complete, body := .waking w v } .completed)
    -- The source panics if the state is `Complete` already, which only this thread could have made it.
    | _, _ => none
  | .wake panics =>
    match s.body with
    | .waking w v =>
      match panics with
      | none => some (emit { s with body := .leaving v } (.woken w))
      | some p => some (emit { s with body := .exited (.error p) } (.woken w))
    | _ => none
  | .exit =>
    match s.body with
    | .leaving v => some { s with body := .exited (.ok v) }
    | _ => none

/-- The thread has just been spawned. -/
def IsStart (s : Join V P) : Prop := s = start V P

/-- A thread that has just been spawned is at its start. -/
lemma isStart_start : IsStart (start V P) := rfl

/-- The wake of the stored waker does not panic. -/
def WakeReturns (_ : Join V P) : Action V P → Prop
  | .wake (some _) => False
  | _ => True

instance (s : Join V P) : DecidablePred s.WakeReturns
  | .wake (some _) => .isFalse id
  | .wake none | .poll _ | .lock | .join | .returns _ | .unwinds _ | .complete | .exit => .isTrue trivial

/-- The steps one by one, with what is known when they are taken. -/
inductive Steps (s : Join V P) : Action V P → Join V P → Prop
  | poll {w : Waker} (hpc : s.pc = .idle) :
      Steps s (.poll w) (emit { s with pc := .called w } (.called w))
  | pending {w w' : Waker} (hpc : s.pc = .called w) (hstate : s.state = .running w') :
      Steps s .lock (emit { s with state := .running w, pc := .idle } (.pending w))
  | took {w : Waker} (hpc : s.pc = .called w) (hstate : s.state = .complete)
      (hhandle : s.joinHandle = true) :
      Steps s .lock (emit { s with joinHandle := false, pc := .joining } .took)
  | polledAgain {w : Waker} (hpc : s.pc = .called w) (hstate : s.state = .complete)
      (hhandle : s.joinHandle = false) : Steps s .lock (emit { s with pc := .idle } .polledAgain)
  | join {r : Except P V} (hpc : s.pc = .joining) (hbody : s.body = .exited r) :
      Steps s .join (emit { s with pc := .idle } (.ready r))
  | returns {v : V} (hbody : s.body = .closure) :
      Steps s (.returns v) (emit { s with body := .returned v } (.returned v))
  | unwinds {p : P} (hbody : s.body = .closure) :
      Steps s (.unwinds p) (emit { s with body := .exited (.error p) } (.unwound p))
  | complete {v : V} {w : Waker} (hbody : s.body = .returned v) (hstate : s.state = .running w) :
      Steps s .complete (emit { s with state := .complete, body := .waking w v } .completed)
  | woken {v : V} {w : Waker} (hbody : s.body = .waking w v) :
      Steps s (.wake none) (emit { s with body := .leaving v } (.woken w))
  | wakePanics {v : V} {w : Waker} {p : P} (hbody : s.body = .waking w v) :
      Steps s (.wake (some p)) (emit { s with body := .exited (.error p) } (.woken w))
  | exit {v : V} (hbody : s.body = .leaving v) : Steps s .exit { s with body := .exited (.ok v) }

/-- Every step is one of these. -/
lemma steps_of_step {a : Action V P} (h : s.step a = some s') : Steps s a s' := by
  cases a with
  | poll w =>
    simp only [step] at h
    split at h
    · rename_i hpc
      exact Option.some.inj h ▸ .poll hpc
    · simp at h
  | lock =>
    simp only [step] at h
    split at h
    · rename_i w hpc
      obtain rfl := Option.some.inj h
      unfold lock
      split
      · rename_i hstate
        exact .pending hpc hstate
      · rename_i hstate
        split_ifs with hhandle
        · exact .took hpc hstate hhandle
        · exact .polledAgain hpc hstate (by simpa using hhandle)
    · simp at h
  | join =>
    simp only [step] at h
    split at h
    · rename_i hpc hbody
      exact Option.some.inj h ▸ .join hpc hbody
    · simp at h
  | returns v =>
    simp only [step] at h
    split at h
    · rename_i hbody
      exact Option.some.inj h ▸ .returns hbody
    · simp at h
  | unwinds p =>
    simp only [step] at h
    split at h
    · rename_i hbody
      exact Option.some.inj h ▸ .unwinds hbody
    · simp at h
  | complete =>
    simp only [step] at h
    split at h
    · rename_i hbody hstate
      exact Option.some.inj h ▸ .complete hbody hstate
    · simp at h
  | wake panics =>
    simp only [step] at h
    split at h
    · rename_i hbody
      split at h
      · exact Option.some.inj h ▸ .woken hbody
      · exact Option.some.inj h ▸ .wakePanics hbody
    · simp at h
  | exit =>
    simp only [step] at h
    split at h
    · rename_i hbody
      exact Option.some.inj h ▸ .exit hbody
    · simp at h

/-- A thread that is in its closure has been there before. -/
lemma closure_of_step {a : Action V P} (hs : s.step a = some s') (h : s'.body = .closure) :
    s.body = .closure := by
  cases steps_of_step hs with
  | returns hbody | unwinds hbody => exact hbody
  | complete hbody hstate | woken hbody | wakePanics hbody | exit hbody => simp [emit] at h
  | _ => exact h

/-- The closure returns in one kind of step. -/
lemma returned_of_step {a : Action V P} (hs : s.step a = some s') {v : V} (h : .returned v ∈ s'.log) :
    .returned v ∈ s.log ∨ a = .returns v := by
  cases steps_of_step hs with
  | @returns w hbody =>
    rcases List.mem_cons.mp h with h | h
    · exact .inr (by rw [JoinEvent.returned.inj h])
    · exact .inl h
  | exit hbody => exact .inl h
  | _ => exact .inl (by simpa [emit] using h)

/-! ## What the history says -/

/-- The waker of the last poll that returned `Poll::Pending`. -/
def lastPending : List (JoinEvent V P) → Waker
  | [] => .noop
  | .pending w :: _ => w
  | _ :: log => lastPending log

/-- The wakers that the thread has woken, newest first. -/
def woken (log : List (JoinEvent V P)) : List Waker :=
  log.filterMap fun e => match e with | .woken w => some w | _ => none

/-- The results that polls have returned, newest first. -/
def results (log : List (JoinEvent V P)) : List (Except P V) :=
  log.filterMap fun e => match e with | .ready r => some r | _ => none

/-- Only a poll that returns `Poll::Pending` changes the last one. -/
lemma lastPending_cons {e : JoinEvent V P} (he : ∀ w, e ≠ .pending w) (log : List (JoinEvent V P)) :
    lastPending (e :: log) = lastPending log := by
  cases e with
  | pending w => exact absurd rfl (he w)
  | _ => rfl

/-! ## The state and the wakers -/

/-- The state is `Complete` once the thread has replaced it, and holds the waker of the last pending poll
before that. -/
structure Handover (s : Join V P) : Prop where
  completed : .completed ∈ s.log ↔ s.state = .complete
  stored : ∀ w, s.state = .running w → w = lastPending s.log
  ordered : ¬ After (· = .completed) (∃ w, · = .pending w) s.log

/-- Other events do not matter to the state. -/
lemma Handover.cons (h : s.Handover) {e : JoinEvent V P} (hstate : s'.state = s.state)
    (hlog : s'.log = e :: s.log) (he : e ≠ .completed) (he' : ∀ w, e ≠ .pending w) : s'.Handover where
  completed := by simp [hlog, hstate, he.symm, h.completed]
  stored w hw := by
    rw [hlog, lastPending_cons he']
    exact h.stored w (hstate ▸ hw)
  ordered := by
    rw [hlog, after_cons]
    rintro (⟨⟨w, hw⟩, -⟩ | hafter)
    · exact he' w hw
    · exact h.ordered hafter

/-- Every step keeps the state in accordance with the history. -/
lemma Handover.step (h : s.Handover) {a : Action V P} (hs : s.step a = some s') : s'.Handover := by
  cases steps_of_step hs with
  | @pending w w' hpc hstate =>
    have hnot : JoinEvent.completed ∉ s.log := fun hm =>
      absurd (h.completed.mp hm) (by simp [hstate])
    refine ⟨by simp [emit, hnot], fun w₁ hw₁ => (JoinState.running.inj hw₁).symm, ?_⟩
    rintro (⟨-, x, hx, rfl⟩ | hafter)
    · exact hnot hx
    · exact h.ordered hafter
  | complete hbody hstate =>
    refine ⟨by simp [emit], fun w hw => by simp [emit] at hw, ?_⟩
    rintro (⟨⟨w, hw⟩, -⟩ | hafter)
    · simp at hw
    · exact h.ordered hafter
  | exit hbody => exact ⟨h.completed, h.stored, h.ordered⟩
  | _ => exact h.cons rfl rfl (by simp) (by simp)

/-- The state is in accordance with the history. -/
lemma handover_of_reachable (h : Reachable step IsStart s) : s.Handover := by
  refine h.invariant ?_ fun _ _ _ _ ih _ hs => ih.step hs
  rintro s rfl
  exact ⟨by simp [start], fun w hw => (JoinState.running.inj hw).symm, id⟩

/-- What the place of the thread says about the state, the wake and the value, as long as no wake
panics. -/
def BodyOk (s : Join V P) : Prop :=
  match s.body with
  | .closure => s.state ≠ .complete ∧ woken s.log = []
  | .returned v => s.state ≠ .complete ∧ woken s.log = [] ∧ .returned v ∈ s.log
  | .waking w v =>
    s.state = .complete ∧ woken s.log = [] ∧ w = lastPending s.log ∧ .returned v ∈ s.log
  | .leaving v | .exited (.ok v) =>
    s.state = .complete ∧ woken s.log = [lastPending s.log] ∧ .returned v ∈ s.log
  | .exited (.error _) => s.state ≠ .complete ∧ woken s.log = []

/-- A step of the poller. -/
lemma BodyOk.cons (h : s.BodyOk) {e : JoinEvent V P} (hbody : s'.body = s.body)
    (hlog : s'.log = e :: s.log) (hstate : s'.state = .complete ↔ s.state = .complete)
    (hlast : s.state = .complete → lastPending s'.log = lastPending s.log)
    (hwoken : woken s'.log = woken s.log) : s'.BodyOk := by
  have hmem : ∀ v, .returned v ∈ s.log → .returned v ∈ s'.log := fun v hv =>
    hlog ▸ List.mem_cons_of_mem _ hv
  have hne : s.state ≠ .complete → s'.state ≠ .complete := fun hne hs => hne (hstate.mp hs)
  unfold BodyOk at h ⊢
  rw [hbody, hwoken]
  split at h
  · exact ⟨hne h.1, h.2⟩
  · exact ⟨hne h.1, h.2.1, hmem _ h.2.2⟩
  · exact ⟨hstate.mpr h.1, h.2.1, h.2.2.1.trans (hlast h.1).symm, hmem _ h.2.2.2⟩
  · exact ⟨hstate.mpr h.1, hlast h.1 ▸ h.2.1, hmem _ h.2.2⟩
  · exact ⟨hstate.mpr h.1, hlast h.1 ▸ h.2.1, hmem _ h.2.2⟩
  · exact ⟨hne h.1, h.2⟩

/-- Every step of a run in which no wake panics keeps the thread in accordance with the history. -/
lemma BodyOk.step (h : s.BodyOk) (hh : s.Handover) {a : Action V P} (hC : s.WakeReturns a)
    (hs : s.step a = some s') : s'.BodyOk := by
  cases steps_of_step hs with
  | poll hpc | polledAgain hpc hstate hhandle | took hpc hstate hhandle | join hpc hbody =>
    exact h.cons rfl rfl .rfl (fun _ => rfl) rfl
  | pending hpc hstate =>
    refine h.cons rfl rfl (by simp [emit, hstate]) (fun hc => ?_) rfl
    simp [hstate] at hc
  | returns hbody =>
    simp only [BodyOk, hbody] at h
    exact ⟨h.1, h.2, List.mem_cons_self⟩
  | unwinds hbody =>
    simp only [BodyOk, hbody] at h
    exact h
  | complete hbody hstate =>
    simp only [BodyOk, hbody] at h
    exact ⟨rfl, h.2.1, hh.stored _ hstate, List.mem_cons_of_mem _ h.2.2⟩
  | @woken v w hbody =>
    simp only [BodyOk, hbody] at h
    obtain ⟨hcomplete, hwoken, rfl, hreturned⟩ := h
    exact ⟨hcomplete, congrArg (List.cons _) hwoken, List.mem_cons_of_mem _ hreturned⟩
  | wakePanics hbody => exact hC.elim
  | exit hbody =>
    simp only [BodyOk, hbody] at h
    exact h

/-- The thread is in accordance with the history. -/
lemma bodyOk_of_reachable (h : ReachableUnder step IsStart WakeReturns s) : s.BodyOk := by
  refine h.invariant ?_ fun _ _ _ h ih hC hs =>
    ih.step (handover_of_reachable h.reachable) hC hs
  rintro s rfl
  exact ⟨by simp [start], rfl⟩

/-! ## The polls -/

/-- The join handle is taken by the first poll that finds the state `Complete`, and that poll returns
the only result. -/
structure PollsOk (s : Join V P) : Prop where
  took : .took ∈ s.log → s.state = .complete
  handle : s.joinHandle = true ↔ .took ∉ s.log
  joined : .took ∈ s.log ↔ s.pc = .joining ∨ results s.log ≠ []
  joining : s.pc = .joining → results s.log = []
  result : ∀ r ∈ results s.log, ∃ v, r = .ok v ∧ .returned v ∈ s.log
  once : (results s.log).length ≤ 1

/-- A step of the thread, or one of the poller that finds no result. -/
lemma PollsOk.cons (h : s.PollsOk) {e : JoinEvent V P} (hlog : s'.log = e :: s.log)
    (hhandle : s'.joinHandle = s.joinHandle) (hpc : s'.pc = .joining ↔ s.pc = .joining)
    (hstate : s.state = .complete → s'.state = .complete) (he : e ≠ .took) (he' : ∀ r, e ≠ .ready r) :
    s'.PollsOk := by
  have hresults : results s'.log = results s.log := by
    rw [hlog, results, List.filterMap_cons_none, results]
    cases e with
    | ready r => exact absurd rfl (he' r)
    | _ => rfl
  have htook : .took ∈ s'.log ↔ .took ∈ s.log := by simp [hlog, he.symm]
  constructor
  · exact fun hm => hstate (h.took (htook.mp hm))
  · rw [hhandle, htook, h.handle]
  · rw [htook, hpc, hresults, h.joined]
  · exact fun hj => hresults ▸ h.joining (hpc.mp hj)
  · intro r hr
    obtain ⟨v, hv, hm⟩ := h.result r (hresults ▸ hr)
    exact ⟨v, hv, hlog ▸ List.mem_cons_of_mem _ hm⟩
  · rw [hresults]
    exact h.once

/-- Every step of a run in which no wake panics keeps the polls in accordance with the history. -/
lemma PollsOk.step (h : s.PollsOk) (hb : s.BodyOk) {a : Action V P} (hs : s.step a = some s') :
    s'.PollsOk := by
  cases steps_of_step hs with
  | poll hpc => exact h.cons rfl rfl (by simp [emit, hpc]) id (by simp) (by simp)
  | pending hpc hstate =>
    refine h.cons rfl rfl (by simp [emit, hpc]) (fun hc => ?_) (by simp) (by simp)
    simp [hstate] at hc
  | polledAgain hpc hstate hhandle =>
    exact h.cons rfl rfl (by simp [emit, hpc]) id (by simp) (by simp)
  | took hpc hstate hhandle =>
    have hnot : results s.log = [] := by
      by_contra hne
      exact h.handle.mp hhandle (h.joined.mpr (.inr hne))
    constructor
    · exact fun _ => hstate
    · simp [emit]
    · simp [emit]
    · exact fun _ => hnot
    · exact fun r hr => absurd hr (show r ∉ results s.log by simp [hnot])
    · exact (congrArg List.length hnot).le.trans (Nat.zero_le 1)
  | @join r hpc hbody =>
    have htook : .took ∈ s.log := h.joined.mpr (.inl hpc)
    have hcomplete := h.took htook
    have hnil := h.joining hpc
    have hresults : results (.ready r :: s.log) = [r] := congrArg (List.cons r) hnil
    obtain ⟨v, rfl, hv⟩ : ∃ v, r = .ok v ∧ .returned v ∈ s.log := by
      simp only [BodyOk, hbody] at hb
      cases r with
      | ok v => exact ⟨v, rfl, hb.2.2⟩
      | error p => exact absurd hcomplete hb.1
    constructor
    · exact fun _ => hcomplete
    · simp [emit, h.handle]
    · simp [emit, hresults, htook]
    · exact fun hj => by simp [emit] at hj
    · intro r hr
      obtain rfl : r = .ok v := by simpa [emit, hresults] using hr
      exact ⟨v, rfl, List.mem_cons_of_mem _ hv⟩
    · exact (congrArg List.length hresults).le
  | complete hbody hstate => exact h.cons rfl rfl .rfl (fun _ => rfl) (by simp) (by simp)
  | returns hbody | unwinds hbody | woken hbody | wakePanics hbody =>
    exact h.cons rfl rfl .rfl id (by simp) (by simp)
  | exit hbody => exact ⟨h.took, h.handle, h.joined, h.joining, h.result, h.once⟩

/-- The polls are in accordance with the history. -/
lemma pollsOk_of_reachable (h : ReachableUnder step IsStart WakeReturns s) : s.PollsOk := by
  refine h.invariant ?_ fun _ _ _ h ih _ hs => ih.step (bodyOk_of_reachable h) hs
  rintro s rfl
  constructor <;> simp [start, results]

/-! ## A closure that returns -/

/-- Every step of a run in which no wake panics keeps the value that the closure has returned. -/
lemma value_step (h : ∀ v, .returned v ∈ s.log → s.body.value = some v) {a : Action V P}
    (hC : s.WakeReturns a) (hs : s.step a = some s') :
    ∀ v, .returned v ∈ s'.log → s'.body.value = some v := by
  intro v hv
  cases steps_of_step hs with
  | returns hbody =>
    rcases List.mem_cons.mp hv with hv | hv
    · exact congrArg some (JoinEvent.returned.inj hv).symm
    · exact absurd (h v hv) (by simp [hbody, ThreadBody.value])
  | unwinds hbody =>
    exact absurd (h v (by simpa [emit] using hv)) (by simp [hbody, ThreadBody.value])
  | complete hbody hstate | woken hbody =>
    have hvalue := h v (by simpa [emit] using hv)
    rwa [hbody] at hvalue
  | exit hbody =>
    have hvalue := h v hv
    rwa [hbody] at hvalue
  | wakePanics hbody => exact hC.elim
  | _ => exact h v (by simpa [emit] using hv)

/-- The thread carries the value that the closure has returned. -/
lemma value_of_reachable (h : ReachableUnder step IsStart WakeReturns s) {v : V}
    (hv : .returned v ∈ s.log) : s.body.value = some v := by
  refine h.invariant (P := fun s => ∀ v, .returned v ∈ s.log → s.body.value = some v) ?_
    (fun _ _ _ _ ih hC hs => value_step ih hC hs) v hv
  rintro s rfl v hv
  simp [start] at hv

/-- What the thread carries, and what a poll has returned, is what the closure has returned. -/
def ReturnedOk (s : Join V P) : Prop :=
  (∀ v, s.body.value = some v → .returned v ∈ s.log) ∧ ∀ v, .ready (.ok v) ∈ s.log → .returned v ∈ s.log

/-- Every step keeps what the closure has returned, whether wakes panic or not. -/
lemma ReturnedOk.step (h : s.ReturnedOk) {a : Action V P} (hs : s.step a = some s') :
    s'.ReturnedOk := by
  -- The other events say nothing about the value.
  have key : ∀ {e : JoinEvent V P}, s'.log = e :: s.log → (∀ r, e ≠ .ready r) →
      (∀ v, s'.body.value = some v → s.body.value = some v) → s'.ReturnedOk := by
    intro e hlog he hvalue
    rw [ReturnedOk, hlog]
    refine ⟨fun v hv => List.mem_cons_of_mem _ (h.1 v (hvalue v hv)), fun v hv => ?_⟩
    rcases List.mem_cons.mp hv with hv | hv
    · exact absurd hv.symm (he _)
    · exact List.mem_cons_of_mem _ (h.2 v hv)
  cases steps_of_step hs with
  | @join r hpc hbody =>
    refine ⟨fun v hv => List.mem_cons_of_mem _ (h.1 v hv), fun v hv => ?_⟩
    rcases List.mem_cons.mp hv with hv | hv
    · obtain rfl : .ok v = r := JoinEvent.ready.inj hv
      exact List.mem_cons_of_mem _ (h.1 v (by rw [hbody]; rfl))
    · exact List.mem_cons_of_mem _ (h.2 v hv)
  | returns hbody =>
    refine ⟨fun v hv => Option.some.inj hv ▸ List.mem_cons_self, fun v hv => ?_⟩
    exact List.mem_cons_of_mem _ (h.2 v (by simpa [emit] using hv))
  | complete hbody hstate | woken hbody =>
    exact key rfl (by simp) fun v hv => by rw [hbody]; exact hv
  | unwinds hbody | wakePanics hbody => exact key rfl (by simp) nofun
  | exit hbody => exact ⟨fun v hv => h.1 v (by rw [hbody]; exact hv), h.2⟩
  | _ => exact key rfl (by simp) fun v hv => hv

/-- A poll returns what the closure has returned. -/
lemma returned_of_ready (h : Reachable step IsStart s) {v : V} (hr : .ready (.ok v) ∈ s.log) :
    .returned v ∈ s.log := by
  have hok : s.ReturnedOk := by
    refine h.invariant ?_ fun _ _ _ _ ih _ hs => ih.step hs
    rintro s rfl
    exact ⟨nofun, by simp [start]⟩
  exact hok.2 v hr

/-- The results that have been returned, event by event. -/
lemma mem_results {log : List (JoinEvent V P)} {r : Except P V} : r ∈ results log ↔ .ready r ∈ log := by
  rw [results, List.mem_filterMap]
  constructor
  · rintro ⟨e, he, hr⟩
    cases e with
    | ready r' => exact Option.some.inj hr ▸ he
    | _ => simp at hr
  · exact fun hm => ⟨_, hm, rfl⟩

/-- The thread wakes one waker, the one of the last pending poll, after it has replaced the state. -/
lemma woken_of_reachable (h : ReachableUnder step IsStart WakeReturns s) :
    (woken s.log = [] ∨ woken s.log = [lastPending s.log] ∧ .completed ∈ s.log) ∧
      ∀ v, s.body = .leaving v ∨ s.body = .exited (.ok v) → woken s.log = [lastPending s.log] := by
  have hb := bodyOk_of_reachable h
  have hh := handover_of_reachable h.reachable
  unfold BodyOk at hb
  split at hb
  · rename_i hbody
    exact ⟨.inl hb.2, by simp [hbody]⟩
  · rename_i hbody
    exact ⟨.inl hb.2.1, by simp [hbody]⟩
  · rename_i hbody
    exact ⟨.inl hb.2.1, by simp [hbody]⟩
  · exact ⟨.inr ⟨hb.2.1, hh.completed.mpr hb.1⟩, fun _ _ => hb.2.1⟩
  · exact ⟨.inr ⟨hb.2.1, hh.completed.mpr hb.1⟩, fun _ _ => hb.2.1⟩
  · rename_i hbody
    exact ⟨.inl hb.2, by simp [hbody]⟩

/-- For a closure that returns and a waker whose wake does not panic, in any order of the steps of the
thread and of the polls: no poll is ready before the closure has returned, and a result is the value of
the closure; the waker of the last poll that returned `Poll::Pending` is woken exactly once, after the
state was replaced; no poll returns `Poll::Pending` after that; and the first poll that takes the lock
after that waits for the thread to exit and returns the value, while every later one panics. -/
theorem join_protocol (h : ReachableUnder step IsStart WakeReturns s) :
    (∀ r, .ready r ∈ s.log → ∃ v, .returned v ∈ s.log) ∧
    (∀ v r, .returned v ∈ s.log → .ready r ∈ s.log → r = .ok v) ∧
    ((woken s.log = [] ∨ woken s.log = [lastPending s.log] ∧ .completed ∈ s.log) ∧
      ∀ v, s.body = .leaving v ∨ s.body = .exited (.ok v) → woken s.log = [lastPending s.log]) ∧
    ¬ After (· = .completed) (∃ w, · = .pending w) s.log ∧
    (∀ s', s.step .lock = some s' → .completed ∈ s.log →
      s'.log = if s.joinHandle then .took :: s.log else .polledAgain :: s.log) ∧
    (s.joinHandle = false ↔ s.pc = .joining ∨ ∃ r, .ready r ∈ s.log) ∧
    (results s.log).length ≤ 1 ∧
    ∀ r, s.pc = .joining → s.body = .exited r → ∃ v s', .returned v ∈ s.log ∧
      s.step .join = some s' ∧ s'.log = .ready (.ok v) :: s.log := by
  have hp := pollsOk_of_reachable h
  have hh := handover_of_reachable h.reachable
  refine ⟨fun r hr => ?_, fun v r hv hr => ?_, woken_of_reachable h, hh.ordered, fun s' hs hc => ?_,
    ?_, hp.once, fun r hpc hbody => ?_⟩
  · obtain ⟨v, -, hv⟩ := hp.result r (mem_results.mpr hr)
    exact ⟨v, hv⟩
  · obtain ⟨v', rfl, hv'⟩ := hp.result r (mem_results.mpr hr)
    have hvalue := (value_of_reachable h hv).symm.trans (value_of_reachable h hv')
    rw [Option.some.inj hvalue]
  · have hcomplete := hh.completed.mp hc
    cases steps_of_step hs with
    | pending hpc hstate => simp [hstate] at hcomplete
    | took hpc hstate hhandle => simp [emit, hhandle]
    | polledAgain hpc hstate hhandle => simp [emit, hhandle]
  · have hne : results s.log ≠ [] ↔ ∃ r, .ready r ∈ s.log :=
      ⟨fun hne => (List.exists_mem_of_ne_nil _ hne).imp fun r => mem_results.mp,
        fun ⟨r, hr⟩ => List.ne_nil_of_mem (mem_results.mpr hr)⟩
    rw [← hne, ← hp.joined, ← Bool.not_eq_true, hp.handle, not_not]
  · have hb := bodyOk_of_reachable h
    have hcomplete := hp.took (hp.joined.mpr (.inl hpc))
    simp only [BodyOk, hbody] at hb
    cases r with
    | ok v =>
      exact ⟨v, emit { s with pc := .idle } (.ready (.ok v)), hb.2.2, by simp [step, hpc, hbody], rfl⟩
    | error p => exact absurd hcomplete hb.1

/-- Two polls with different wakers, the second of which the thread wakes. -/
theorem join_protocol_of_two_polls : ∃ s : Join ℕ Unit, ReachableUnder step IsStart WakeReturns s ∧
    s.body = .exited (.ok 7) ∧ woken s.log = [.other 1] := by
  obtain ⟨s, hs, h⟩ := ReachableUnder.exists_run step WakeReturns (s := start ℕ Unit) isStart_start
    [.poll (.other 0), .lock, .returns 7, .poll (.other 1), .lock, .complete, .wake none, .exit]
    (P := fun s => decide (s.body = .exited (.ok 7) ∧ lastPending s.log = .other 1)) (by decide)
  obtain ⟨hbody, hlast⟩ := of_decide_eq_true h
  exact ⟨s, hs, hbody, hlast ▸ (join_protocol hs).2.2.1.2 7 (.inr hbody)⟩

/-- A poll that was called before the state was replaced takes the lock afterwards and returns the value;
the first poll that is called after the state was replaced panics. -/
theorem join_result_of_earlier_poll : ∃ s : Join ℕ Unit, ReachableUnder step IsStart WakeReturns s ∧
    s.log = [.polledAgain, .called (.other 1), .ready (.ok 7), .woken .noop, .took, .completed,
      .returned 7, .called (.other 0)] := by
  obtain ⟨s, hs, h⟩ := ReachableUnder.exists_run step WakeReturns (s := start ℕ Unit) isStart_start
    [.poll (.other 0), .returns 7, .complete, .lock, .wake none, .exit, .join, .poll (.other 1), .lock]
    (P := fun s => decide (s.log = [.polledAgain, .called (.other 1), .ready (.ok 7), .woken .noop,
      .took, .completed, .returned 7, .called (.other 0)])) (by decide)
  exact ⟨s, hs, of_decide_eq_true h⟩

/-! ## A closure that unwinds -/

/-- Nothing has come of the thread yet. -/
structure Unfinished (s : Join V P) : Prop where
  state : s.state ≠ .complete
  woken : ∀ w, .woken w ∉ s.log
  ready : ∀ r, .ready r ∉ s.log
  pc : s.pc ≠ .joining

/-- Polls do not change that. -/
lemma Unfinished.cons (h : s.Unfinished) {e : JoinEvent V P} (hlog : s'.log = e :: s.log)
    (hstate : s'.state ≠ .complete) (hpc : s'.pc ≠ .joining) (he : ∀ w, e ≠ .woken w)
    (he' : ∀ r, e ≠ .ready r) : s'.Unfinished where
  state := hstate
  woken w := by simpa [hlog, (he w).symm] using h.woken w
  ready r := by simpa [hlog, (he' r).symm] using h.ready r
  pc := hpc

/-- Nothing comes of a thread whose closure is running or has unwound. -/
def UnwoundOk (s : Join V P) : Prop :=
  (s.body = .closure → s.Unfinished) ∧
    ∀ p, .unwound p ∈ s.log → s.body = .exited (.error p) ∧ s.Unfinished

/-- Nothing comes of a thread whose closure is running or has unwound, in every step. -/
lemma UnwoundOk.step (h : s.UnwoundOk) {a : Action V P} (hs : s.step a = some s') : s'.UnwoundOk := by
  have hnot : ∀ {b : ThreadBody V P}, s.body = b → (∀ p, b ≠ .exited (.error p)) → ∀ p,
      .unwound p ∉ s.log := fun hb hne p hp => hne p (hb.symm.trans (h.2 p hp).1)
  -- A step of the poller finds the state running, and leaves it so.
  have hpoller : ∀ {e : JoinEvent V P}, s'.body = s.body → s'.log = e :: s.log →
      (∀ p, e ≠ .unwound p) → (s.Unfinished → s'.Unfinished) → s'.UnwoundOk := by
    intro e hbody hlog he hfin
    refine ⟨fun hb => hfin (h.1 (hbody ▸ hb)), fun p hp => ?_⟩
    obtain ⟨hb, hu⟩ := h.2 p (by simpa [hlog, (he p).symm] using hp)
    exact ⟨hbody ▸ hb, hfin hu⟩
  cases steps_of_step hs with
  | poll hpc =>
    exact hpoller rfl rfl (by simp) fun hu => hu.cons rfl hu.state (by simp [emit]) (by simp) (by simp)
  | pending hpc hstate =>
    exact hpoller rfl rfl (by simp) fun hu =>
      hu.cons rfl (by simp [emit]) (by simp [emit]) (by simp) (by simp)
  | took hpc hstate hhandle | polledAgain hpc hstate hhandle =>
    exact hpoller rfl rfl (by simp) fun hu => absurd hstate hu.state
  | join hpc hbody => exact hpoller rfl rfl (by simp) fun hu => absurd hpc hu.pc
  | returns hbody =>
    refine ⟨by simp [emit], fun p hp => ?_⟩
    exact absurd (by simpa [emit] using hp) (hnot hbody (by simp) p)
  | @unwinds p hbody =>
    refine ⟨by simp [emit], fun q hq => ?_⟩
    rcases List.mem_cons.mp hq with hq | hq
    · obtain rfl := JoinEvent.unwound.inj hq
      have hu := h.1 hbody
      exact ⟨rfl, hu.cons rfl hu.state hu.pc (by simp) (by simp)⟩
    · exact absurd hq (hnot hbody (by simp) q)
  | complete hbody hstate | woken hbody | wakePanics hbody | exit hbody =>
    refine ⟨by simp [emit], fun p hp => ?_⟩
    exact absurd (by simpa [emit] using hp) (hnot hbody (by simp) p)

/-- After the closure has unwound the thread has exited, the waker of no poll has been woken, and every
poll returns `Poll::Pending`. -/
theorem unwound_never_ready (h : Reachable step IsStart s) {p : P} (hp : .unwound p ∈ s.log) :
    s.body = .exited (.error p) ∧ (∀ w, .woken w ∉ s.log) ∧ (∀ r, .ready r ∉ s.log) ∧
      ∀ s', s.step .lock = some s' → ∃ w, s'.log = .pending w :: s.log := by
  have hok : s.UnwoundOk := by
    refine h.invariant ?_ fun _ _ _ _ ih _ hs => ih.step hs
    rintro s rfl
    exact ⟨fun _ => ⟨by simp [start], by simp [start], by simp [start], by simp [start]⟩,
      by simp [start]⟩
  obtain ⟨hbody, hu⟩ := hok.2 p hp
  refine ⟨hbody, hu.woken, hu.ready, fun s' hs => ?_⟩
  cases steps_of_step hs with
  | pending hpc hstate => exact ⟨_, rfl⟩
  | took hpc hstate hhandle | polledAgain hpc hstate hhandle => exact absurd hstate hu.state

/-- The `JoinFuture` of a thread that panics is polled before it does, and then again. -/
theorem unwound_never_ready_of_panic : ∃ s s' : Join ℕ String, Reachable step IsStart s ∧
    s.log = [.called (.other 1), .unwound "disk full", .pending (.other 0), .called (.other 0)] ∧
      s.body = .exited (.error "disk full") ∧ (∀ w, .woken w ∉ s.log) ∧ s.step .lock = some s' ∧
        ∃ w, s'.log = .pending w :: s.log := by
  obtain ⟨s, hs, h⟩ := ReachableUnder.exists_free_run step (s := start ℕ String) isStart_start
    [.poll (.other 0), .lock, .unwinds "disk full", .poll (.other 1)]
    (P := fun s => decide (s.log = [.called (.other 1), .unwound "disk full", .pending (.other 0),
      .called (.other 0)]) && (s.step .lock).isSome) (by decide)
  obtain ⟨hlog, hsome⟩ := Bool.and_eq_true_iff.mp h
  have hlog := of_decide_eq_true hlog
  obtain ⟨s', hlock⟩ := Option.isSome_iff_exists.mp hsome
  obtain ⟨hbody, hwoken, -, hpending⟩ := unwound_never_ready hs (p := "disk full") (by simp [hlog])
  exact ⟨s, s', hs, hlog, hbody, hwoken, hlock, hpending s' hlock⟩

/-- The closure panics after a poll has left its waker, which is not woken, and the next poll returns
`Poll::Pending` again. -/
theorem unwound_hangs : ∃ s : Join ℕ String, Reachable step IsStart s ∧
    s.body = .exited (.error "disk full") ∧
      s.log = [.pending (.other 1), .called (.other 1), .unwound "disk full", .pending (.other 0),
        .called (.other 0)] := by
  obtain ⟨s, hs, h⟩ := ReachableUnder.exists_free_run step (s := start ℕ String) isStart_start
    [.poll (.other 0), .lock, .unwinds "disk full", .poll (.other 1), .lock]
    (P := fun s => decide (s.body = .exited (.error "disk full") ∧
      s.log = [.pending (.other 1), .called (.other 1), .unwound "disk full", .pending (.other 0),
        .called (.other 0)])) (by decide)
  exact ⟨s, hs, of_decide_eq_true h⟩

end Join

end Epox

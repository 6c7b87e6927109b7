import Epox.Join.Protocol
import Mathlib.Logic.Function.Basic

/-!
# Flushing a file

`AsyncWriteFd::poll_flush` starts a thread that calls `fsync` or `tcdrain` on a duplicate of the
descriptor, keeps its `JoinFuture` in `flush_handle` and polls it; the handle is cleared when a result is
returned.  If the caller gives a pending flush up, the handle stays, and the next flush polls it again.

`WriteFd` is an `AsyncWriteFd` together with the flush threads it has started.  A flush operation begins
with the first `poll_flush` after the last one has ended or was given up; `now` counts the steps, so that
the time of a write can be compared with the time at which a thread called `fsync`.
-/

namespace Epox

/-- `enum FlushStyle`. -/
inductive FlushStyle
  | tcdrain
  | fsync
  deriving DecidableEq

/-- A thread started by `poll_flush`. -/
structure FlushThread (P : Type) where
  /-- When it was spawned. -/
  spawned : ℕ
  /-- The descriptor could be duplicated. -/
  cloned : Bool
  /-- When it called `fsync` or `tcdrain`. -/
  started : Option ℕ
  /-- What this call returned. -/
  synced : Option (Except Errno Unit)
  join : Join (Except Errno Unit) P

/-- What the closure of the thread returns, when it does. -/
def FlushThread.result {P : Type} (t : FlushThread P) : Option (Except Errno Unit) :=
  if t.cloned then t.synced else some (.error .other)

/-- What a call of `poll_flush` comes to. -/
inductive FlushReturn
  | pending
  | ready (result : Except Errno Unit)
  /-- It cannot spawn the thread, unwraps the result of one that has panicked, or polls its handle again. -/
  | panicked
  deriving DecidableEq

/-- An `AsyncWriteFd` and its flush threads. -/
structure WriteFd (P : Type) where
  flushStyle : Option FlushStyle
  flushHandle : Option ℕ
  threads : ℕ → FlushThread P
  nThreads : ℕ
  now : ℕ
  /-- When calls of `poll_write` have completed. -/
  writes : List ℕ
  /-- A call of `poll_flush` is in progress. -/
  polling : Bool
  /-- When the flush operation in progress has begun, and whether it could rely on the thread that it
  found. -/
  began : Option (ℕ × Bool)
  /-- What the calls of `poll_flush` came to, newest first. -/
  returned : List FlushReturn

namespace WriteFd

variable {P : Type} {s s' : WriteFd P}

/-- `AsyncWriteFd::new` of a file with the flush style. -/
def start (P : Type) (style : Option FlushStyle) : WriteFd P where
  flushStyle := style
  flushHandle := none
  threads _ := ⟨0, false, none, none, .start _ _⟩
  nThreads := 0
  now := 0
  writes := []
  polling := false
  began := none
  returned := []

/-! ## The functions of the source -/

/-- Change the thread. -/
def setThread (s : WriteFd P) (i : ℕ) (t : FlushThread P) : WriteFd P :=
  { s with threads := Function.update s.threads i t }

/-- The thread has taken a step of the join protocol. -/
def setJoin (s : WriteFd P) (i : ℕ) (j : Join (Except Errno Unit) P) : WriteFd P :=
  s.setThread i { s.threads i with join := j }

/-- Time passes. -/
def tick (s : WriteFd P) : WriteFd P := { s with now := s.now + 1 }

/-- The thread whose `JoinFuture` is kept has not called `fsync` yet, or has called it after all writes
that have completed; or there is none. -/
def Fresh (s : WriteFd P) : Prop :=
  ∀ i ∈ s.flushHandle, ∀ t ∈ (s.threads i).started, ∀ u ∈ s.writes, u < t

instance (s : WriteFd P) : Decidable s.Fresh :=
  inferInstanceAs (Decidable (∀ i ∈ s.flushHandle, ∀ t ∈ (s.threads i).started, ∀ u ∈ s.writes, u < t))

/-- A flush operation begins, unless one is in progress. -/
def begin (s : WriteFd P) : WriteFd P :=
  match s.began with
  | some _ => s
  | none => { s with began := some (s.now, decide s.Fresh) }

/-- `flush_handle.get_or_insert_with`: the handle and the state after it.  `cloned` says whether the
descriptor can be duplicated; without it no thread can be spawned. -/
def getOrInsert (s : WriteFd P) (cloned : Option Bool) : Option (ℕ × WriteFd P) :=
  match s.flushHandle, cloned with
  | some i, _ => some (i, s)
  | none, some cloned =>
    some (s.nThreads, { s.setThread s.nThreads ⟨s.now, cloned, none, none, .start _ _⟩ with
      flushHandle := some s.nThreads
      nThreads := s.nThreads + 1 })
  | none, none => none

/-- A call of `poll_flush` ends; with it the operation, unless the call returns `Poll::Pending`. -/
def finish (s : WriteFd P) : FlushReturn → WriteFd P
  | .pending => { s with polling := false, returned := .pending :: s.returned }
  | r => { s with polling := false, began := none, returned := r :: s.returned }

/-- `AsyncWriteFd::poll_flush`, up to the lock of the `JoinFuture`. -/
def pollFlush (s : WriteFd P) (cx : Waker) (cloned : Option Bool) : Option (WriteFd P) :=
  match s.flushStyle with
  | none => some (s.finish (.ready (.ok ())))
  | some _ =>
    match s.begin.getOrInsert cloned with
    | none => some (s.begin.finish .panicked)
    | some (i, s') => ((s'.threads i).join.step (.poll cx)).map fun j =>
      { s'.setJoin i j with polling := true }

/-- `AsyncWriteFd::poll_flush`, after the lock of the `JoinFuture`. -/
def locked (s : WriteFd P) (i : ℕ) (j : Join (Except Errno Unit) P) : WriteFd P :=
  match j.log with
  | .pending _ :: _ => (s.setJoin i j).finish .pending
  | .polledAgain :: _ => (s.setJoin i j).finish .panicked
  | _ => s.setJoin i j

/-- `AsyncWriteFd::poll_flush`, when the thread has been joined. -/
def joined (s : WriteFd P) (i : ℕ) (j : Join (Except Errno Unit) P) : WriteFd P :=
  match j.log with
  | .ready (.ok ret) :: _ => { (s.setJoin i j).finish (.ready ret) with flushHandle := none }
  | _ => (s.setJoin i j).finish .panicked

/-! ## Steps -/

/-- Who takes the next step, and what the environment decides about it. -/
inductive Action (P : Type)
  /-- A call of `poll_write`; it has completed, or returns `Poll::Pending`. -/
  | pollWrite (ready : Bool)
  | pollFlush (cx : Waker) (cloned : Option Bool)
  /-- `poll_flush` takes the lock of the `JoinFuture`. -/
  | lock
  /-- `poll_flush` has joined the thread. -/
  | join
  /-- The caller gives a pending flush up. -/
  | abandon
  /-- A flush thread calls `fsync` or `tcdrain`. -/
  | sync (i : ℕ)
  /-- The call returns. -/
  | synced (i : ℕ) (result : Except Errno Unit)
  /-- The closure of a flush thread returns. -/
  | returns (i : ℕ)
  /-- A flush thread replaces the state. -/
  | complete (i : ℕ)
  /-- A flush thread wakes the waker, which may panic. -/
  | wake (i : ℕ) (panics : Option P)
  /-- A flush thread exits. -/
  | exit (i : ℕ)

/-- A flush thread takes a step of the join protocol. -/
def threadStep (s : WriteFd P) (i : ℕ) (a : Join.Action (Except Errno Unit) P) : Option (WriteFd P) :=
  if i < s.nThreads then ((s.threads i).join.step a).map fun j => s.setJoin i j else none

/-- One step, without the time it takes. -/
def act (s : WriteFd P) : Action P → Option (WriteFd P)
  | .pollWrite ready =>
    if s.polling then none
    else if ready then some { s with writes := s.now :: s.writes }
    else some s
  | .pollFlush cx cloned => if s.polling then none else s.pollFlush cx cloned
  | .lock =>
    if s.polling then
      s.flushHandle.bind fun i => ((s.threads i).join.step .lock).map fun j => s.locked i j
    else
      none
  | .join =>
    if s.polling then
      s.flushHandle.bind fun i => ((s.threads i).join.step .join).map fun j => s.joined i j
    else
      none
  | .abandon => if s.polling then none else some { s with began := none }
  | .sync i =>
    match (s.threads i).join.body, (s.threads i).started with
    | .closure, none =>
      if i < s.nThreads ∧ (s.threads i).cloned then
        some (s.setThread i { s.threads i with started := some s.now })
      else
        none
    | _, _ => none
  | .synced i result =>
    match (s.threads i).started, (s.threads i).synced with
    | some _, none =>
      if i < s.nThreads then some (s.setThread i { s.threads i with synced := some result }) else none
    | _, _ => none
  | .returns i => (s.threads i).result.bind fun v => s.threadStep i (.returns v)
  | .complete i => s.threadStep i .complete
  | .wake i panics => s.threadStep i (.wake panics)
  | .exit i => s.threadStep i .exit

/-- One step. -/
def step (s : WriteFd P) (a : Action P) : Option (WriteFd P) := (s.act a).map tick

/-- An `AsyncWriteFd` with a flush style has just been made. -/
def IsStart (s : WriteFd P) : Prop := ∃ style, s = start P (some style)

/-- An `AsyncWriteFd` that has just been made is at its start. -/
lemma isStart_start (style : FlushStyle) : IsStart (start P (some style)) := ⟨style, rfl⟩

/-! ## The threads -/

/-- What holds of every flush thread before the time `n`. -/
structure ThreadOk (n : ℕ) (t : FlushThread P) : Prop where
  join : Reachable Join.step Join.IsStart t.join
  spawned : t.spawned ≤ n
  started : ∀ u, t.started = some u → t.spawned ≤ u ∧ u < n
  synced : ∀ r, t.synced = some r → ∃ u, t.started = some u
  result : ∀ v, .returned v ∈ t.join.log → t.result = some v

/-- Time passes for a thread. -/
lemma ThreadOk.mono {n m : ℕ} {t : FlushThread P} (h : ThreadOk n t) (hnm : n ≤ m) : ThreadOk m t where
  join := h.join
  spawned := h.spawned.trans hnm
  started u hu := ⟨(h.started u hu).1, (h.started u hu).2.trans_le hnm⟩
  synced := h.synced
  result := h.result

/-- A thread that has just been spawned. -/
lemma threadOk_spawn {n : ℕ} {cloned : Bool} {k : ℕ} (hk : k ≤ n) :
    ThreadOk (P := P) n ⟨k, cloned, none, none, .start _ _⟩ where
  join := .init Join.isStart_start
  spawned := hk
  started := nofun
  synced := nofun
  result := by simp [Join.start]

/-- A thread, or its poller, takes a step of the join protocol; the closure returns its result. -/
lemma ThreadOk.join_step {n : ℕ} {t : FlushThread P} (h : ThreadOk n t)
    {a : Join.Action (Except Errno Unit) P} {j : Join (Except Errno Unit) P}
    (hs : t.join.step a = some j) (ha : ∀ v, a = .returns v → t.result = some v) :
    ThreadOk n { t with join := j } where
  join := h.join.next trivial hs
  spawned := h.spawned
  started := h.started
  synced := h.synced
  result v hv := (Join.returned_of_step hs hv).elim (h.result v) (ha v)

/-- How a thread may change while it is the business of the others only that time passes: it stays the
thread spawned then, it calls `fsync` or `tcdrain` at most once, from its closure, and it does not come
back to the closure. -/
structure Later (n : ℕ) (t t' : FlushThread P) : Prop where
  ok : ThreadOk (n + 1) t'
  spawned : t'.spawned = t.spawned
  started : t'.started = t.started ∨ t.started = none ∧ t'.started = some n ∧ t.join.body = .closure
  closure : t'.join.body = .closure → t.join.body = .closure

/-- A step of the join protocol is such a change. -/
lemma ThreadOk.later_join {n : ℕ} {t : FlushThread P} (h : ThreadOk n t)
    {a : Join.Action (Except Errno Unit) P} {j : Join (Except Errno Unit) P}
    (hs : t.join.step a = some j) (ha : ∀ v, a = .returns v → t.result = some v) :
    Later n t { t with join := j } :=
  ⟨(h.join_step hs ha).mono n.le_succ, rfl, .inl rfl, Join.closure_of_step hs⟩

/-- A thread calls `fsync` or `tcdrain`. -/
lemma ThreadOk.later_sync {n : ℕ} {t : FlushThread P} (h : ThreadOk n t) (hnone : t.started = none)
    (hbody : t.join.body = .closure) : Later n t { t with started := some n } where
  ok :=
    { join := h.join
      spawned := h.spawned.trans n.le_succ
      started := fun _ hu => Option.some.inj hu ▸ ⟨h.spawned, n.lt_succ_self⟩
      synced := fun _ _ => ⟨n, rfl⟩
      result := h.result }
  spawned := rfl
  started := .inr ⟨hnone, rfl, hbody⟩
  closure := id

/-- The call returns. -/
lemma ThreadOk.later_synced {n : ℕ} {t : FlushThread P} (h : ThreadOk n t) {u : ℕ}
    (hstarted : t.started = some u) (hnone : t.synced = none) (r : Except Errno Unit) :
    Later n t { t with synced := some r } where
  ok :=
    { join := h.join
      spawned := h.spawned.trans n.le_succ
      started := (h.mono n.le_succ).started
      synced := fun _ _ => ⟨u, hstarted⟩
      result := fun v hv => by
        -- A thread whose closure has returned has a result already.
        have hresult := h.result v hv
        unfold FlushThread.result at hresult ⊢
        split_ifs at hresult ⊢ with hcloned
        · simp [hnone] at hresult
        · exact hresult }
  spawned := rfl
  started := .inl rfl
  closure := id

/-! ## The flush operations -/

/-- What holds before the time `n`: only the thread whose handle is kept can be in its closure, the others
have called `fsync` or `tcdrain` before it was spawned, and the flush operation in progress can rely on it
or not, as recorded. -/
structure Timely (s : WriteFd P) (n : ℕ) : Prop where
  style : s.flushStyle ≠ none
  writes : ∀ u ∈ s.writes, u < n
  thread : ∀ i, ThreadOk n (s.threads i)
  running : ∀ i < s.nThreads, (s.threads i).join.body = .closure → s.flushHandle = some i
  handle : ∀ i, s.flushHandle = some i →
    i < s.nThreads ∧ ∀ j ≠ i, ∀ t, (s.threads j).started = some t → t < (s.threads i).spawned
  began : ∀ b fresh, s.began = some (b, fresh) → b ≤ n
  fresh : ∀ b, s.began = some (b, true) → ∀ i, s.flushHandle = some i →
    ∀ t, (s.threads i).started = some t → ∀ u ∈ s.writes, u < b → u < t
  stale : ∀ b, s.began = some (b, false) → ∃ i t, s.flushHandle = some i ∧
    (s.threads i).started = some t ∧ ∃ u ∈ s.writes, u < b ∧ t ≤ u
  polling : s.polling = true → s.began.isSome = true

/-- Time passes. -/
lemma Timely.mono {n m : ℕ} (h : s.Timely n) (hnm : n ≤ m) : s.Timely m :=
  { h with
    writes := fun u hu => (h.writes u hu).trans_le hnm
    thread := fun i => (h.thread i).mono hnm
    began := fun b fresh hb => (h.began b fresh hb).trans hnm }

/-- One thread changes. -/
lemma Timely.later {n i : ℕ} (h : s.Timely n) (hi : i < s.nThreads) {t : FlushThread P}
    (hl : Later n (s.threads i) t) : (s.setThread i t).Timely (n + 1) := by
  have hself : (s.setThread i t).threads i = t := Function.update_self ..
  have hother : ∀ {j}, j ≠ i → (s.setThread i t).threads j = s.threads j := fun hj =>
    Function.update_of_ne hj ..
  -- A thread that starts only now has the handle.
  have hstarted : ∀ j u, ((s.setThread i t).threads j).started = some u →
      (s.threads j).started = some u ∨ s.flushHandle = some j ∧ u = n := by
    intro j u hu
    by_cases hj : j = i
    · subst hj
      rw [hself] at hu
      rcases hl.started with hsame | ⟨-, hnow, hbody⟩
      · exact .inl (hsame ▸ hu)
      · exact .inr ⟨h.running j hi hbody, Option.some.inj (hu.symm.trans hnow)⟩
    · exact .inl (hother hj ▸ hu)
  have hspawned : ∀ j, ((s.setThread i t).threads j).spawned = (s.threads j).spawned := by
    intro j
    by_cases hj : j = i
    · rw [hj, hself, hl.spawned]
    · rw [hother hj]
  exact
    { style := h.style
      writes := (h.mono n.le_succ).writes
      thread := fun j => by
        by_cases hj : j = i
        · rw [hj, hself]
          exact hl.ok
        · rw [hother hj]
          exact (h.thread j).mono n.le_succ
      running := fun j hlt hbody => by
        by_cases hj : j = i
        · subst hj
          exact h.running j hi (hl.closure (hself ▸ hbody))
        · exact h.running j hlt (hother hj ▸ hbody)
      handle := fun k hk => by
        refine ⟨(h.handle k hk).1, fun j hj u hu => ?_⟩
        rw [hspawned]
        rcases hstarted j u hu with hu | ⟨hj', -⟩
        · exact (h.handle k hk).2 j hj u hu
        · exact absurd (Option.some.inj (hj'.symm.trans hk)) hj
      began := (h.mono n.le_succ).began
      fresh := fun b hb k hk u hu w hw hwb => by
        rcases hstarted k u hu with hu | ⟨-, rfl⟩
        · exact h.fresh b hb k hk u hu w hw hwb
        · exact h.writes w hw
      stale := fun b hb => by
        obtain ⟨k, u, hk, hu, hw⟩ := h.stale b hb
        refine ⟨k, u, hk, ?_, hw⟩
        by_cases hj : k = i
        · subst hj
          rcases hl.started with hsame | ⟨hnone, -⟩
          · rw [hself, hsame, hu]
          · simp [hnone] at hu
        · rw [hother hj, hu]
      polling := h.polling }

/-- A call of `poll_write` completes. -/
lemma Timely.write {n : ℕ} (h : s.Timely n) : Timely { s with writes := n :: s.writes } (n + 1) :=
  { h.mono n.le_succ with
    writes := fun u hu => by
      rcases List.mem_cons.mp hu with rfl | hu
      · exact Nat.lt_succ_self u
      · exact (h.writes u hu).trans n.lt_succ_self
    fresh := fun b hb i hi t ht u hu hub => by
      rcases List.mem_cons.mp hu with rfl | hu
      · exact absurd (h.began b _ hb) (by omega)
      · exact h.fresh b hb i hi t ht u hu hub
    stale := fun b hb => by
      obtain ⟨i, t, hi, ht, u, hu, hub⟩ := h.stale b hb
      exact ⟨i, t, hi, ht, u, List.mem_cons_of_mem _ hu, hub⟩ }

/-- A flush operation begins, unless one is in progress. -/
lemma Timely.begin (h : s.Timely s.now) : s.begin.Timely s.now := by
  unfold WriteFd.begin
  split
  · exact h
  · rename_i hnone
    refine { h with began := ?_, fresh := ?_, stale := ?_, polling := fun _ => rfl }
    · intro b fresh hb
      exact (congrArg Prod.fst (Option.some.inj hb)).ge
    · intro b hb i hi t ht u hu _
      have hfresh := of_decide_eq_true (congrArg Prod.snd (Option.some.inj hb))
      exact hfresh i hi t ht u hu
    · intro b hb
      have hstale := of_decide_eq_false (congrArg Prod.snd (Option.some.inj hb))
      simp only [Fresh, not_forall, not_lt] at hstale
      obtain ⟨i, hi, t, ht, u, hu, htu⟩ := hstale
      obtain rfl : s.now = b := congrArg Prod.fst (Option.some.inj hb)
      exact ⟨i, t, hi, ht, u, hu, h.writes u hu, htu⟩

/-- The thread whose handle is kept, or a new one. -/
lemma Timely.getOrInsert {n i : ℕ} (h : s.Timely n) (hn : n = s.now) {cloned : Option Bool}
    (hs : s.getOrInsert cloned = some (i, s')) :
    s'.Timely n ∧ s'.flushHandle = some i ∧ s'.began = s.began := by
  unfold WriteFd.getOrInsert at hs
  split at hs
  · rename_i hhandle
    obtain ⟨rfl, rfl⟩ := Prod.mk.inj (Option.some.inj hs)
    exact ⟨h, hhandle, rfl⟩
  · rename_i cloned hnone
    obtain ⟨rfl, rfl⟩ := Prod.mk.inj (Option.some.inj hs)
    subst hn
    refine ⟨?_, rfl, rfl⟩
    have hother : ∀ {j}, j ≠ s.nThreads → ∀ {t : FlushThread P},
        Function.update s.threads s.nThreads t j = s.threads j := fun hj => Function.update_of_ne hj ..
    refine ⟨h.style, h.writes, fun j => ?_, fun j hj hbody => ?_, fun j hj => ?_, h.began,
      fun b hb j hj t ht => ?_, fun b hb => ?_, h.polling⟩
    · by_cases hj : j = s.nThreads
      · subst hj
        simpa [setThread] using threadOk_spawn le_rfl
      · simpa [setThread, hother hj] using h.thread j
    · by_cases hjn : j = s.nThreads
      · rw [hjn]
      · have hlt : j < s.nThreads := by simp only at hj; omega
        have hrunning := h.running j hlt (by simpa [setThread, hother hjn] using hbody)
        simp [hnone] at hrunning
    · obtain rfl := Option.some.inj hj
      refine ⟨Nat.lt_succ_self _, fun k hk t ht => ?_⟩
      have ht : (s.threads k).started = some t := by simpa [setThread, hother hk] using ht
      simpa [setThread] using ((h.thread k).started t ht).2
    · obtain rfl := Option.some.inj hj
      simp [setThread] at ht
    · obtain ⟨j, -, hj, -⟩ := h.stale b hb
      simp [hnone] at hj
  · simp at hs

/-- A call of `poll_flush` ends. -/
lemma Timely.finish {n : ℕ} (h : s.Timely n) (r : FlushReturn) : (s.finish r).Timely n := by
  cases r with
  | pending => exact { h with polling := nofun }
  | _ => exact { h with began := nofun, fresh := nofun, stale := nofun, polling := nofun }

/-- The handle is cleared after the thread has been joined. -/
lemma Timely.clear {n i : ℕ} (h : s.Timely n) (hbegan : s.began = none) (hpolling : s.polling = false)
    (hhandle : s.flushHandle = some i) (hbody : (s.threads i).join.body ≠ .closure) :
    Timely { s with flushHandle := none } n where
  style := h.style
  writes := h.writes
  thread := h.thread
  running j hj hclosure := by
    obtain rfl := Option.some.inj ((h.running j hj hclosure).symm.trans hhandle)
    exact absurd hclosure hbody
  handle := nofun
  began := h.began
  fresh b hb := by simp [hbegan] at hb
  stale b hb := by simp [hbegan] at hb
  polling := by simp [hpolling]

/-! ## The steps -/

@[simp] lemma finish_now (s : WriteFd P) (r : FlushReturn) : (s.finish r).now = s.now := by
  cases r <;> rfl

@[simp] lemma begin_now (s : WriteFd P) : s.begin.now = s.now := by
  unfold begin
  split <;> rfl

/-- A new thread takes no time, and ends no call. -/
lemma getOrInsert_frame {i : ℕ} {cloned : Option Bool} (h : s.getOrInsert cloned = some (i, s')) :
    s'.now = s.now ∧ s'.returned = s.returned := by
  unfold getOrInsert at h
  split at h
  · obtain ⟨rfl, rfl⟩ := Prod.mk.inj (Option.some.inj h)
    exact ⟨rfl, rfl⟩
  · obtain ⟨rfl, rfl⟩ := Prod.mk.inj (Option.some.inj h)
    exact ⟨rfl, rfl⟩
  · simp at h

/-- A flush thread does not end a call. -/
lemma threadStep_returned {i : ℕ} {a : Join.Action (Except Errno Unit) P}
    (h : s.threadStep i a = some s') : s'.returned = s.returned := by
  unfold threadStep at h
  split_ifs at h
  obtain ⟨j, -, rfl⟩ := Option.map_eq_some_iff.mp h
  rfl

/-- The thread of the handle takes a step of the join protocol with its poller. -/
lemma Timely.setJoin {n i : ℕ} (h : s.Timely n) (hi : i < s.nThreads)
    {a : Join.Action (Except Errno Unit) P} {j : Join (Except Errno Unit) P}
    (hs : (s.threads i).join.step a = some j)
    (ha : ∀ v, a = .returns v → (s.threads i).result = some v) : (s.setJoin i j).Timely (n + 1) :=
  h.later hi ((h.thread i).later_join hs ha)

/-- A flush thread takes a step of the join protocol. -/
lemma Timely.threadStep {n i : ℕ} (h : s.Timely n) {a : Join.Action (Except Errno Unit) P}
    (hs : s.threadStep i a = some s') (ha : ∀ v, a = .returns v → (s.threads i).result = some v) :
    s'.Timely (n + 1) ∧ s'.now = s.now := by
  unfold WriteFd.threadStep at hs
  split_ifs at hs with hi
  obtain ⟨j, hj, rfl⟩ := Option.map_eq_some_iff.mp hs
  exact ⟨h.setJoin hi hj ha, rfl⟩

/-- A call of `poll_flush`, up to the lock. -/
lemma Timely.pollFlush (h : s.Timely s.now) {cx : Waker} {cloned : Option Bool}
    (hs : s.pollFlush cx cloned = some s') : s'.Timely (s.now + 1) ∧ s'.now = s.now := by
  unfold WriteFd.pollFlush at hs
  split at hs
  · obtain rfl := Option.some.inj hs
    exact ⟨(h.finish _).mono s.now.le_succ, finish_now ..⟩
  · cases hget : s.begin.getOrInsert cloned with
    | none =>
      obtain rfl : s.begin.finish .panicked = s' := by simpa [hget] using hs
      exact ⟨(h.begin.finish _).mono s.now.le_succ, by simp⟩
    | some r =>
      obtain ⟨i, s₁⟩ := r
      simp only [hget, Option.map_eq_some_iff] at hs
      obtain ⟨j, hj, rfl⟩ := hs
      obtain ⟨h₁, hhandle, hbegan⟩ := h.begin.getOrInsert (begin_now s).symm hget
      have hset := h₁.setJoin (h₁.handle i hhandle).1 hj nofun
      refine ⟨{ hset with polling := fun _ => ?_ }, (getOrInsert_frame hget).1.trans (begin_now s)⟩
      have hsome : s.begin.began.isSome := by
        unfold WriteFd.begin
        split
        · rename_i hb
          simp [hb]
        · rfl
      simpa [WriteFd.setJoin, setThread, hbegan] using hsome

/-- `poll_flush` after the lock. -/
lemma Timely.locked {n i : ℕ} {j : Join (Except Errno Unit) P} (hset : (s.setJoin i j).Timely n) :
    (s.locked i j).Timely n ∧ (s.locked i j).now = s.now := by
  unfold WriteFd.locked
  split
  · exact ⟨hset.finish _, finish_now ..⟩
  · exact ⟨hset.finish _, finish_now ..⟩
  · exact ⟨hset, rfl⟩

/-- `poll_flush` when the thread has been joined. -/
lemma Timely.joined {n i : ℕ} {j : Join (Except Errno Unit) P} (hset : (s.setJoin i j).Timely n)
    (hhandle : s.flushHandle = some i) (hbody : j.body ≠ .closure) :
    (s.joined i j).Timely n ∧ (s.joined i j).now = s.now := by
  unfold WriteFd.joined
  split
  · rename_i ret _ _
    refine ⟨(hset.finish (.ready ret)).clear rfl rfl (i := i) hhandle ?_, rfl⟩
    simpa [WriteFd.setJoin, setThread, WriteFd.finish] using hbody
  · exact ⟨hset.finish _, finish_now ..⟩

/-- Every step keeps the times in order. -/
lemma Timely.act (h : s.Timely s.now) {a : Action P} (hs : s.act a = some s') :
    s'.Timely (s.now + 1) ∧ s'.now = s.now := by
  cases a with
  | pollWrite ready =>
    simp only [WriteFd.act] at hs
    split_ifs at hs
    · obtain rfl := Option.some.inj hs
      exact ⟨h.write, rfl⟩
    · obtain rfl := Option.some.inj hs
      exact ⟨h.mono s.now.le_succ, rfl⟩
  | pollFlush cx cloned =>
    simp only [WriteFd.act] at hs
    split_ifs at hs
    exact h.pollFlush hs
  | lock =>
    simp only [WriteFd.act] at hs
    split_ifs at hs
    obtain ⟨i, hi, hs⟩ := Option.bind_eq_some_iff.mp hs
    obtain ⟨j, hj, rfl⟩ := Option.map_eq_some_iff.mp hs
    exact (h.setJoin (h.handle i hi).1 hj (by simp)).locked
  | join =>
    simp only [WriteFd.act] at hs
    split_ifs at hs
    obtain ⟨i, hi, hs⟩ := Option.bind_eq_some_iff.mp hs
    obtain ⟨j, hj, rfl⟩ := Option.map_eq_some_iff.mp hs
    refine (h.setJoin (h.handle i hi).1 hj (by simp)).joined hi fun hbody => ?_
    cases Join.steps_of_step hj with
    | join hpc hexited => simp [Join.emit, hexited] at hbody
  | abandon =>
    simp only [WriteFd.act] at hs
    split_ifs at hs with hpolling
    obtain rfl := Option.some.inj hs
    exact ⟨{ h.mono s.now.le_succ with
      began := by simp, fresh := by simp, stale := by simp, polling := fun hp => absurd hp hpolling }, rfl⟩
  | sync i =>
    simp only [WriteFd.act] at hs
    split at hs
    · rename_i hbody hnone
      split_ifs at hs with hi
      obtain rfl := Option.some.inj hs
      exact ⟨h.later hi.1 ((h.thread i).later_sync hnone hbody), rfl⟩
    · simp at hs
  | synced i result =>
    simp only [WriteFd.act] at hs
    split at hs
    · rename_i hstarted hnone
      split_ifs at hs with hi
      obtain rfl := Option.some.inj hs
      exact ⟨h.later hi ((h.thread i).later_synced hstarted hnone result), rfl⟩
    · simp at hs
  | returns i =>
    obtain ⟨v, hv, hs⟩ := Option.bind_eq_some_iff.mp hs
    refine h.threadStep hs fun w hw => ?_
    rw [← Join.Action.returns.inj hw]
    exact hv
  | complete i | wake i panics | exit i => exact h.threadStep hs (by simp)

/-- The times are in order. -/
lemma timely_of_reachable (h : Reachable step IsStart s) : s.Timely s.now := by
  refine h.invariant (P := fun s => s.Timely s.now) ?_ fun s a s' _ ih _ hs => ?_
  · rintro s ⟨style, rfl⟩
    refine ⟨nofun, nofun, fun i => threadOk_spawn le_rfl, nofun, nofun, nofun, nofun, nofun, nofun⟩
  · obtain ⟨s₁, hs₁, rfl⟩ := Option.map_eq_some_iff.mp hs
    obtain ⟨h₁, hnow⟩ := ih.act hs₁
    have htick : s₁.tick.now = s.now + 1 := congrArg (· + 1) hnow
    rw [htick]
    exact { h₁ with }

/-! ## What a flush says -/

/-- An `fsync` or `tcdrain` that was called after every write before `b` has returned success. -/
def Flushed (s : WriteFd P) (b : ℕ) : Prop :=
  ∃ i t, (s.threads i).started = some t ∧ (s.threads i).synced = some (.ok ()) ∧
    ∀ u ∈ s.writes, u < b → u < t

/-- Every other step records no success. -/
lemma returned_of_act (hstyle : s.flushStyle ≠ none) {a : Action P} (ha : a ≠ .join)
    (hs : s.act a = some s') : s'.returned = s.returned ∨ s'.returned = .pending :: s.returned ∨
      s'.returned = .panicked :: s.returned := by
  have hbegin : s.begin.returned = s.returned := by
    unfold WriteFd.begin
    split <;> rfl
  cases a with
  | pollWrite ready =>
    simp only [WriteFd.act] at hs
    split_ifs at hs
    · exact .inl (Option.some.inj hs ▸ rfl)
    · exact .inl (Option.some.inj hs ▸ rfl)
  | pollFlush cx cloned =>
    simp only [WriteFd.act, WriteFd.pollFlush] at hs
    split_ifs at hs
    split at hs
    · rename_i hnone
      exact absurd hnone hstyle
    · split at hs
      · obtain rfl := Option.some.inj hs
        exact .inr (.inr (congrArg (List.cons _) hbegin))
      · rename_i i s₁ hget
        obtain ⟨j, -, rfl⟩ := Option.map_eq_some_iff.mp hs
        exact .inl ((getOrInsert_frame hget).2.trans hbegin)
  | lock =>
    simp only [WriteFd.act] at hs
    split_ifs at hs
    obtain ⟨i, hi, hs⟩ := Option.bind_eq_some_iff.mp hs
    obtain ⟨j, hj, rfl⟩ := Option.map_eq_some_iff.mp hs
    unfold WriteFd.locked
    split
    · exact .inr (.inl rfl)
    · exact .inr (.inr rfl)
    · exact .inl rfl
  | join => exact absurd rfl ha
  | abandon =>
    simp only [WriteFd.act] at hs
    split_ifs at hs
    exact .inl (Option.some.inj hs ▸ rfl)
  | sync i =>
    simp only [WriteFd.act] at hs
    split at hs
    · split_ifs at hs
      exact .inl (Option.some.inj hs ▸ rfl)
    · simp at hs
  | synced i result =>
    simp only [WriteFd.act] at hs
    split at hs
    · split_ifs at hs
      exact .inl (Option.some.inj hs ▸ rfl)
    · simp at hs
  | returns i =>
    obtain ⟨v, -, hs⟩ := Option.bind_eq_some_iff.mp hs
    exact .inl (threadStep_returned hs)
  | complete i | wake i panics | exit i => exact .inl (threadStep_returned hs)

/-- A call of `poll_flush` returns success in one kind of step, which finds the thread of the handle
joined. -/
lemma ready_ok_of_step (h : Reachable step IsStart s) {a : Action P} (hs : s.step a = some s')
    (hr : s'.returned = .ready (.ok ()) :: s.returned) : ∃ i t b fresh, s.flushHandle = some i ∧
      (s.threads i).started = some t ∧ (s.threads i).synced = some (.ok ()) ∧
        s.began = some (b, fresh) := by
  have ht := timely_of_reachable h
  obtain ⟨s₁, hs₁, rfl⟩ := Option.map_eq_some_iff.mp hs
  have ha : a = .join := by
    by_contra hne
    rcases returned_of_act ht.style hne hs₁ with hr' | hr' | hr' <;>
      simp [tick, hr'] at hr
  subst ha
  simp only [WriteFd.act] at hs₁
  split_ifs at hs₁ with hpolling
  obtain ⟨i, hi, hs₁⟩ := Option.bind_eq_some_iff.mp hs₁
  obtain ⟨j, hj, rfl⟩ := Option.map_eq_some_iff.mp hs₁
  obtain ⟨⟨b, fresh⟩, hb⟩ := Option.isSome_iff_exists.mp (ht.polling hpolling)
  -- The result of the join is what the closure has returned.
  have hlog : .ready (.ok (.ok ())) ∈ j.log := by
    simp only [tick, WriteFd.joined] at hr
    split at hr
    · rename_i ret log hlog
      have hret : .ready ret :: s.returned = .ready (.ok ()) :: s.returned := hr
      rw [hlog, FlushReturn.ready.inj (List.cons.inj hret).1]
      exact List.mem_cons_self
    · simp [WriteFd.finish] at hr
  have hj' := (ht.thread i).join_step hj nofun
  have hresult := hj'.result _ (Join.returned_of_ready hj'.join hlog)
  have hsynced : (s.threads i).synced = some (.ok ()) := by
    unfold FlushThread.result at hresult
    split_ifs at hresult
    · exact hresult
    · simp at hresult
  obtain ⟨t, hstarted⟩ := (ht.thread i).synced _ hsynced
  exact ⟨i, t, b, fresh, hi, hstarted, hsynced, hb⟩

/-- A thread that was left and had missed a write is the last that has been spawned. -/
lemma Timely.fresh_of_flushed {n b : ℕ} (h : s.Timely n) {fresh : Bool}
    (hb : s.began = some (b, fresh)) (hf : s.Flushed b) : fresh = true := by
  obtain ⟨j, u, hu, -, hafter⟩ := hf
  cases fresh with
  | true => rfl
  | false =>
    obtain ⟨i, t, hi, ht, w, hw, hwb, hle⟩ := h.stale b hb
    have hwu := hafter w hw hwb
    by_cases hj : j = i
    · subst hj
      obtain rfl := Option.some.inj (hu.symm.trans ht)
      exact absurd hwu hle.not_gt
    · -- All others have called `fsync` or `tcdrain` before it was spawned.
      have hlt := (h.handle i hi).2 j hj u hu
      have hspawned := ((h.thread i).started t ht).1
      omega

/-- A call of `poll_flush` that returns success says that an `fsync` or `tcdrain` called after all the
writes that had completed before the flush operation began has returned success exactly if then no thread
was left, or the one that was left had not called it yet, or only after these writes. -/
theorem flushed_iff (h : Reachable step IsStart s) {a : Action P} (hs : s.step a = some s')
    (hr : s'.returned = .ready (.ok ()) :: s.returned) :
    ∃ b fresh, s.began = some (b, fresh) ∧ (s.Flushed b ↔ fresh = true) := by
  have ht := timely_of_reachable h
  obtain ⟨i, t, b, fresh, hi, hstarted, hsynced, hb⟩ := ready_ok_of_step h hs hr
  refine ⟨b, fresh, hb, ht.fresh_of_flushed hb, ?_⟩
  rintro rfl
  exact ⟨i, t, hstarted, hsynced, ht.fresh b hb i hi t hstarted⟩

/-- A write and a flush that is not given up. -/
theorem flushed_of_write : ∃ s : WriteFd Unit, Reachable step IsStart s ∧ s.writes = [0] ∧
    (∃ s', s.step .join = some s' ∧ s'.returned = [.ready (.ok ()), .pending]) ∧ s.Flushed 1 := by
  obtain ⟨s, hs, h⟩ := ReachableUnder.exists_free_run step (isStart_start .tcdrain)
    [.pollWrite true, .pollFlush .noop (some true), .lock, .sync 0, .synced 0 (.ok ()), .returns 0,
      .complete 0, .wake 0 none, .exit 0, .pollFlush .noop (some true), .lock]
    (P := fun s => decide (s.writes = [0] ∧ s.returned = [.pending] ∧ s.began = some (1, true)) &&
      (s.step .join).any fun s' : WriteFd Unit => decide (s'.returned = [.ready (.ok ()), .pending]))
    (by decide)
  obtain ⟨hstate, hjoin⟩ := Bool.and_eq_true_iff.mp h
  obtain ⟨hwrites, hpending, hbegan⟩ := of_decide_eq_true hstate
  obtain ⟨s', hs', hr⟩ := (Option.any_eq_true _ _).mp hjoin
  have hr := of_decide_eq_true hr
  obtain ⟨b, fresh, hb, hiff⟩ := flushed_iff hs hs' (hr.trans (congrArg _ hpending.symm))
  obtain ⟨rfl, rfl⟩ := Prod.mk.inj (Option.some.inj (hbegan.symm.trans hb))
  exact ⟨s, hs, hwrites, ⟨s', hs', hr⟩, hiff.mpr rfl⟩

/-- A flush is given up after its thread has called `tcdrain`; the flush of the next write takes the result
of this thread. -/
theorem flush_of_earlier_write : ∃ s s' : WriteFd Unit, Reachable step IsStart s ∧
    s.writes = [5, 0] ∧ s.began = some (6, false) ∧ s.step .join = some s' ∧
      s'.returned = [.ready (.ok ()), .pending] ∧ ¬ s.Flushed 6 := by
  obtain ⟨s, hs, h⟩ := ReachableUnder.exists_free_run step (isStart_start .tcdrain)
    [.pollWrite true, .pollFlush .noop (some true), .lock, .sync 0, .abandon, .pollWrite true,
      .pollFlush .noop (some true), .synced 0 (.ok ()), .returns 0, .complete 0, .wake 0 none, .exit 0,
      .lock]
    (P := fun s => decide (s.writes = [5, 0] ∧ s.began = some (6, false)) &&
      (s.step .join).any fun s' : WriteFd Unit => decide (s'.returned = [.ready (.ok ()), .pending]))
    (by decide)
  obtain ⟨hstate, hjoin⟩ := Bool.and_eq_true_iff.mp h
  obtain ⟨hwrites, hbegan⟩ := of_decide_eq_true hstate
  obtain ⟨s', hs', hr⟩ := (Option.any_eq_true _ _).mp hjoin
  refine ⟨s, s', hs, hwrites, hbegan, hs', of_decide_eq_true hr, fun hf => ?_⟩
  simpa using (timely_of_reachable hs).fresh_of_flushed hbegan hf

end WriteFd

end Epox

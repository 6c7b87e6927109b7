import Epox.Executor.Sparing
import Epox.Foundation.Progress

/-!
# The objects behind the descriptors

The closures that `AsyncReadFd::poll_read`, `AsyncWriteFd::poll_write`, `Timer::tick` and
`AsyncSignal::receive` give to `poll_with` have one shape: they make one system call on the descriptor of
their `Fd`, always in the direction for which the `Fd` is registered, and return what it returns.  A
`Device` says what the kernel keeps behind such descriptors, when it takes them for ready and what the
system call does; all that is asked of it is that an operation on a descriptor that is ready does not fail
with `EAGAIN`.

`Io V D` are the threads and descriptors of `Epoll` with the objects of a device behind some of them.  Other
processes may operate on these objects at any time.  For every `Fd` of the device it is noted what its polls
have returned, and with which waker the last one has left its caller waiting.

The invariants of an `Fd` of the device are `Attached` and `Rests`: as long as the waker that was given to the
last poll has not been invoked, the `Fd` holds it.  A run is `Fair` to an `Fd` if it polls it, unless the
waker that was given to the last poll has still to be invoked.  In such a run an operation that is awaited and
stays possible is carried out (`leadsTo_results`), whether the `Fd` has to wait for an edge, is told to yield
because of the burst limit, or its system calls are interrupted.
-/

namespace Epox

namespace EpollFlags

/-- `EPOLLIN` is a direction. -/
lemma epollIn_spec : epollIn ≠ 0 ∧ epollIn &&& (epollIn ||| epollOut) = epollIn := by decide

/-- Objects that are read from are registered for a direction. -/
lemma epollIn_ne_zero (α : Type) : ∀ _ : α, epollIn ≠ 0 := fun _ => epollIn_spec.1

/-- Objects that are read from are registered for nothing else than directions. -/
lemma epollIn_and_directions (α : Type) : ∀ _ : α, epollIn &&& (epollIn ||| epollOut) = epollIn :=
  fun _ => epollIn_spec.2

/-- `EPOLLOUT` is a direction. -/
lemma epollOut_spec : epollOut ≠ 0 ∧ epollOut &&& (epollIn ||| epollOut) = epollOut := by decide

end EpollFlags

/-- What the kernel keeps behind the descriptors of a kind, and the system call that the closures make. -/
structure Device where
  State : Type
  /-- What a descriptor refers to. -/
  Object : Type
  /-- The arguments of the system call. -/
  Request : Type
  /-- What the kernel decides about a system call. -/
  Choice : Type
  /-- What the system call returns, but for `EINTR` and `EAGAIN`. -/
  Result : Type
  /-- What else happens to the objects. -/
  Event : Type
  /-- What the kernel keeps at first. -/
  Fresh : State → Prop
  /-- The direction for which the `Fd` of an object is registered. -/
  direction : Object → EpollFlags
  /-- The descriptor of the object is ready in this direction. -/
  ready : State → Object → Bool
  event : State → Event → Option State
  /-- The system call; `none` for `EAGAIN`. -/
  operate : State → Object → Request → Choice → Option (State × Result)
  direction_ne : ∀ x, direction x ≠ 0
  direction_le : ∀ x, direction x &&& (.epollIn ||| .epollOut) = direction x
  operates : ∀ k x i n, ready k x = true → operate k x i n ≠ none

namespace Device

variable (D : Device)

/-- The directions in which the descriptor of an object is ready. -/
def flags (k : D.State) (x : D.Object) : EpollFlags := if D.ready k x then D.direction x else 0

end Device

/-- A thread, its descriptors, and the objects of a device behind some of them. -/
structure Io (V : Type) (D : Device) where
  epoll : Epoll V
  kernel : D.State
  /-- The objects behind the descriptors of the `Fd`s of the device. -/
  object : FdId → Option D.Object
  /-- The arguments of the system call that the closure of the poll in progress makes. -/
  request : FdId → Option D.Request
  /-- How many polls have returned `Poll::Pending`. -/
  pendings : FdId → ℕ
  /-- What polls have returned with `Poll::Ready`, the latest first. -/
  results : FdId → List D.Result
  /-- If the last poll has returned `Poll::Pending`, the waker it was given, and how many things had happened
  before. -/
  waiting : FdId → Option (Waker × ℕ)

/-- What happens to the objects, or to anything else. -/
inductive IoAction (V : Type) (D : Device)
  /-- Something that is not about an `Fd` of the device. -/
  | epoll (b : EpollAction V)
  /-- Something else happens to the objects. -/
  | event (e : D.Event)
  /-- `Fd::new` for a descriptor of the object. -/
  | fdNew (x : D.Object) (raw : RawFd) (fcntl ctl : Bool)
  /-- The `Fd` is polled. -/
  | poll (f : FdId) (i : D.Request) (cx : Waker) (k : KernelAnswer)
  /-- The system call of the closure on top of the stack fails with `EINTR`. -/
  | interrupted
  /-- The system call of the closure on top of the stack is made, and the closure returns. -/
  | operate (n : D.Choice)

namespace Epoll

variable {V : Type}

/-- Some descriptors are ready in other directions than before.  Those that have become ready in a direction
get an edge. -/
def refresh (p : Epoll V) (flags : FdId → Option EpollFlags) : Epoll V :=
  { p with
    ready := fun f => (flags f).getD (p.ready f)
    edge := fun f => p.edge f ||| ((flags f).getD (p.ready f) &&& ~~~p.ready f &&& p.mask f) }

/-- The descriptor that is going to be registered next is ready in some directions. -/
def preset (p : Epoll V) (flags : EpollFlags) : Epoll V :=
  { p with ready := Function.update p.ready p.thread.nFds flags }

end Epoll

namespace Io

variable {V : Type} {D : Device}

/-- The `Fd` of the device whose closure is on top of the stack. -/
def operating (c : Io V D) : Option FdId :=
  c.epoll.thread.calling.filter fun f => (c.object f).isSome

/-- The code of the caller runs, and not within a closure of the device. -/
def inUserCode (c : Io V D) : Bool :=
  c.epoll.thread.inUserCode && c.epoll.thread.panicked.isNone && c.operating.isNone

/-- A step of the thread or of a descriptor. -/
def epollStep (c : Io V D) (b : EpollAction V) : Option (Io V D) :=
  (c.epoll.step b).map fun e => { c with epoll := e }

/-- The objects change, and with them the readiness of their descriptors. -/
def setKernel (c : Io V D) (k : D.State) : Io V D :=
  { c with
    kernel := k
    epoll := c.epoll.refresh fun f => (c.object f).map (D.flags k) }

/-- `Fd::new` for a descriptor of an object. -/
def fdNew (c : Io V D) (x : D.Object) (raw : RawFd) (fcntl ctl : Bool) : Option (Io V D) :=
  let f := c.epoll.thread.nFds
  (({ c with epoll := c.epoll.preset (D.flags c.kernel x) } : Io V D).epollStep
    (.thread (.fdNew raw (D.direction x) fcntl ctl))).map fun c' =>
      if fcntl then { c' with object := Function.update c'.object f (some x) } else c'

/-- A poll of an `Fd` with the waker `cx`, before whose last step `n` things had happened, returns
`Poll::Pending`. -/
def returnPending (c : Io V D) (f : FdId) (cx : Waker) (n : ℕ) : Io V D :=
  { c with
    request := Function.update c.request f none
    pendings := Function.update c.pendings f (c.pendings f + 1)
    waiting := Function.update c.waiting f (some (cx, n)) }

/-- A poll of an `Fd` returns `Poll::Ready`. -/
def returnReady (c : Io V D) (f : FdId) (res : D.Result) : Io V D :=
  { c with
    request := Function.update c.request f none
    results := Function.update c.results f (res :: c.results f)
    waiting := Function.update c.waiting f none }

/-- `Fd::poll_with`, up to the closure. -/
def poll (c : Io V D) (f : FdId) (i : D.Request) (cx : Waker) (k : KernelAnswer) : Option (Io V D) :=
  (c.epollStep (.thread (.pollWith f cx k))).map fun c' =>
    match (c.epoll.thread.fds f).ew.pollWithEnter cx with
    | .call =>
      { c' with
        request := Function.update c'.request f (some i)
        waiting := Function.update c'.waiting f none }
    | _ => c'.returnPending f cx c.epoll.thread.log.length

/-- The closure on top of the stack makes its system call and returns, and with it `Fd::poll_with`. -/
def operate (c : Io V D) (n : D.Choice) : Option (Io V D) :=
  match c.epoll.thread.stack with
  | .pollWith f cx :: _ =>
    match c.object f, c.request f with
    | some x, some i =>
      match D.operate c.kernel x i n with
      | none => (c.epollStep (.wouldBlock (D.direction x))).map fun c' =>
          c'.returnPending f cx c.epoll.thread.log.length
      | some (k, res) =>
        (c.epollStep (.thread (.closure .done))).map fun c' => (c'.setKernel k).returnReady f res
    | _, _ => none
  | _ => none

/-- What is not about an `Fd` of the device: nobody calls `poll_with` on it, or anything within its closure,
and its descriptor is as ready as its object says. -/
def elsewhere (c : Io V D) : EpollAction V → Bool
  | .thread (.pollWith f _ _) => (c.object f).isNone && c.operating.isNone
  | .thread a => a.isForeign || c.operating.isNone
  | .wouldBlock _ => c.operating.isNone
  | .arrive f _ | .recede f _ => (c.object f).isNone
  | _ => true

/-- A step. -/
def step (c : Io V D) : IoAction V D → Option (Io V D)
  | .epoll b => if c.elsewhere b then c.epollStep b else none
  | .event e => (D.event c.kernel e).map c.setKernel
  | .fdNew x raw fcntl ctl => if c.inUserCode then c.fdNew x raw fcntl ctl else none
  | .poll f i cx k => if c.inUserCode && (c.object f).isSome then c.poll f i cx k else none
  | .interrupted => if c.operating.isSome then c.epollStep (.thread (.closure .interrupted)) else none
  | .operate n => c.operate n

/-- A thread at its start, and no `Fd` of the device. -/
def IsStart (c : Io V D) : Prop :=
  c.epoll.IsStart ∧ D.Fresh c.kernel ∧ (∀ f, c.object f = none) ∧
    (∀ f, c.request f = none ∧ c.waiting f = none) ∧ ∀ f, c.results f = []

end Io

/-! ## Descriptors that are watched -/

namespace Epoll

variable {V : Type} {p p' : Epoll V} {f : FdId} {d : EpollFlags}

/-- The `Fd` is registered for a direction, and remembers that its descriptor is ready in it. -/
structure Watches (p : Epoll V) (f : FdId) (d : EpollFlags) : Prop where
  known : f < p.thread.nFds
  mask : p.mask f = d
  remembers : p.thread.panicked = none → p.thread.inInterest f → p.Remembers f

/-- Every step, as long as the closures of the `Fd` operate in its direction. -/
lemma Watches.step {b : EpollAction V} (h : p.Watches f d) (hs : p.step b = some p')
    (hb : ∀ d', b = .wouldBlock d' → p.thread.calling = some f → d' = d) : p'.Watches f d := by
  have hknown := h.known.trans_le (nFds_le_of_step hs)
  refine ⟨hknown, ?_, fun hp hreg => ?_⟩
  · rcases step_cases hs with ⟨a, -, ha⟩ | ⟨-, -, -, hmask, -⟩
    · rw [(threadStep_eq_some ha).2.2]
      exact (opened_eq h.known.ne).1.trans h.mask
    · rw [hmask, h.mask]
  · have hone : OneDirection f p b := by
      cases b with
      | wouldBlock d' => exact fun hc => (hb d' rfl hc).trans h.mask.symm
      | _ => trivial
    exact remembers_step hs hp hone.keepsOthers hknown hreg fun _ =>
      h.remembers (panicked_of_step hs hp)

/-- A descriptor that becomes ready gets an edge. -/
lemma Watches.refresh (h : p.Watches f d) (flags : FdId → Option EpollFlags) :
    (p.refresh flags).Watches f d := by
  refine ⟨h.known, h.mask, fun hp hreg => ?_⟩
  have hm := h.remembers hp hreg
  rw [Remembers, contains_unqueued_iff] at hm ⊢
  simp only [Epoll.refresh, BitVec.getLsbD_or, BitVec.getLsbD_and, BitVec.getLsbD_not]
  intro i hr hmask hq
  have hlt : i < 32 := BitVec.lt_of_getLsbD hmask
  refine hm i ?_ hmask ?_ <;> grind

/-- What is ready before it is registered does not matter to the others. -/
lemma Watches.preset (h : p.Watches f d) (flags : EpollFlags) : (p.preset flags).Watches f d := by
  refine ⟨h.known, h.mask, fun hp hreg => ?_⟩
  have hready : (p.preset flags).ready f = p.ready f := by simp [Epoll.preset, h.known.ne]
  rw [Remembers, hready]
  exact h.remembers hp hreg

/-- A new `Fd`. -/
lemma watches_of_fdNew {raw : RawFd} {events : EpollFlags} {ctl : Bool}
    (h : p.threadStep (.fdNew raw events true ctl) = some p') :
    p'.Watches p.thread.nFds (events &&& (.epollIn ||| .epollOut)) := by
  obtain ⟨-, hs, heq⟩ := threadStep_eq_some h
  have hknown : p.thread.nFds < p'.thread.nFds := by
    rw [Thread.eq_of_fdNew hs, (Thread.fdNew_spec p.thread raw events ctl).1]
    exact Nat.lt_succ_self _
  refine ⟨hknown, ?_, fun hp hreg => ?_⟩
  · rw [heq]
    simp only [opened, Function.update_self]
  · refine remembers_step (b := .thread (.fdNew raw events true ctl)) h hp trivial hknown hreg
      fun hlt => absurd hlt (lt_irrefl _)

/-- An `Fd` whose descriptor is ready has events, or an edge is queued. -/
lemma Watches.events (h : p.Watches f d) (hp : p.thread.panicked = none) (hreg : p.thread.inInterest f)
    (hready : p.ready f &&& d ≠ 0) (hedge : p.edge f = 0) : (p.thread.fds f).ew.events ≠ 0 :=
  (h.remembers hp hreg).events_ne_zero (h.mask.symm ▸ hready) hedge

end Epoll

namespace Io

variable {V : Type} {D : Device} {c c' : Io V D} {f : FdId} {x : D.Object}

/-! ## What the functions do -/

section Simp

variable (c) (k : D.State) (f : FdId) (res : D.Result) (cx : Waker) (n : ℕ)

@[simp] lemma setKernel_thread : (c.setKernel k).epoll.thread = c.epoll.thread := rfl

@[simp] lemma setKernel_parked : (c.setKernel k).epoll.parked = c.epoll.parked := rfl

@[simp] lemma setKernel_object : (c.setKernel k).object = c.object := rfl

@[simp] lemma setKernel_pendings : (c.setKernel k).pendings = c.pendings := rfl

@[simp] lemma setKernel_results : (c.setKernel k).results = c.results := rfl

@[simp] lemma setKernel_waiting : (c.setKernel k).waiting = c.waiting := rfl

@[simp] lemma setKernel_kernel : (c.setKernel k).kernel = k := rfl

lemma setKernel_ready {g : FdId} {x : D.Object} (h : c.object g = some x) :
    (c.setKernel k).epoll.ready g = D.flags k x := by
  simp [setKernel, Epoll.refresh, h]

@[simp] lemma returnPending_epoll : (c.returnPending f cx n).epoll = c.epoll := rfl

@[simp] lemma returnPending_kernel : (c.returnPending f cx n).kernel = c.kernel := rfl

@[simp] lemma returnPending_object : (c.returnPending f cx n).object = c.object := rfl

@[simp] lemma returnPending_results : (c.returnPending f cx n).results = c.results := rfl

@[simp] lemma returnPending_self : (c.returnPending f cx n).waiting f = some (cx, n) := by
  simp [returnPending]

lemma returnPending_of_ne {g : FdId} (h : g ≠ f) :
    (c.returnPending f cx n).pendings g = c.pendings g ∧
      (c.returnPending f cx n).waiting g = c.waiting g := by simp [returnPending, h]

@[simp] lemma returnReady_epoll : (c.returnReady f res).epoll = c.epoll := rfl

@[simp] lemma returnReady_kernel : (c.returnReady f res).kernel = c.kernel := rfl

@[simp] lemma returnReady_object : (c.returnReady f res).object = c.object := rfl

@[simp] lemma returnReady_pendings : (c.returnReady f res).pendings = c.pendings := rfl

@[simp] lemma returnReady_self : (c.returnReady f res).results f = res :: c.results f := by
  simp [returnReady]

lemma returnReady_of_ne {g : FdId} (h : g ≠ f) :
    (c.returnReady f res).results g = c.results g ∧
      (c.returnReady f res).waiting g = c.waiting g := by simp [returnReady, h]

end Simp

/-- A step of the thread or of a descriptor. -/
lemma epollStep_eq_some {b : EpollAction V} (h : c.epollStep b = some c') :
    c.epoll.step b = some c'.epoll ∧ c' = { c with epoll := c'.epoll } := by
  obtain ⟨e, he, rfl⟩ := Option.map_eq_some_iff.mp h
  exact ⟨he, rfl⟩

/-- `Fd::new`. -/
lemma fdNew_eq_some {raw : RawFd} {fcntl ctl : Bool} (h : c.fdNew x raw fcntl ctl = some c') :
    (c.epoll.preset (D.flags c.kernel x)).step (.thread (.fdNew raw (D.direction x) fcntl ctl)) =
        some c'.epoll ∧
      c' = { c with
        epoll := c'.epoll
        object :=
          if fcntl then Function.update c.object c.epoll.thread.nFds (some x) else c.object } := by
  obtain ⟨c₁, hc₁, rfl⟩ := Option.map_eq_some_iff.mp h
  obtain ⟨hs, heq⟩ := epollStep_eq_some hc₁
  cases fcntl with
  | false => exact ⟨hs, heq⟩
  | true =>
    refine ⟨hs, ?_⟩
    rw [heq]
    rfl

/-- A poll of an `Fd`, up to the closure. -/
lemma poll_eq_some {i : D.Request} {cx : Waker} {k : KernelAnswer} (h : c.poll f i cx k = some c') :
    ∃ c₁, c.epollStep (.thread (.pollWith f cx k)) = some c₁ ∧
      c' = match (c.epoll.thread.fds f).ew.pollWithEnter cx with
        | .call =>
          { c₁ with
            request := Function.update c₁.request f (some i)
            waiting := Function.update c₁.waiting f none }
        | _ => c₁.returnPending f cx c.epoll.thread.log.length := by
  obtain ⟨c₁, hc₁, rfl⟩ := Option.map_eq_some_iff.mp h
  exact ⟨c₁, hc₁, rfl⟩

/-- The system call fails with `EAGAIN`, or it does not. -/
lemma operate_cases {n : D.Choice} (h : c.operate n = some c') : ∃ f x i,
    c.epoll.thread.calling = some f ∧ c.object f = some x ∧ c.request f = some i ∧ ∃ c₁,
      (D.operate c.kernel x i n = none ∧ c.epollStep (.wouldBlock (D.direction x)) = some c₁ ∧
          (∃ cx rest, c.epoll.thread.stack = .pollWith f cx :: rest ∧
            c' = c₁.returnPending f cx c.epoll.thread.log.length) ∨
        ∃ k res, D.operate c.kernel x i n = some (k, res) ∧
          c.epollStep (.thread (.closure .done)) = some c₁ ∧
            c' = (c₁.setKernel k).returnReady f res) := by
  unfold operate at h
  split at h
  · rename_i f cx rest hstack
    split at h
    · rename_i x i hx hi
      refine ⟨f, x, i, by simp [Thread.calling, hstack], hx, hi, ?_⟩
      split at h
      · rename_i hop
        obtain ⟨c₁, hc₁, rfl⟩ := Option.map_eq_some_iff.mp h
        exact ⟨c₁, .inl ⟨hop, hc₁, cx, rest, hstack, rfl⟩⟩
      · rename_i k res hop
        obtain ⟨c₁, hc₁, rfl⟩ := Option.map_eq_some_iff.mp h
        exact ⟨c₁, .inr ⟨k, res, hop, hc₁, rfl⟩⟩
    · simp at h
  · simp at h

/-- The objects and the results change when something else happens to the objects, and when a system call is
made. -/
lemma kernel_cases {a : IoAction V D} (h : c.step a = some c') :
    (c'.kernel = c.kernel ∧ c'.results = c.results) ∨
      (∃ e, a = .event e ∧ D.event c.kernel e = some c'.kernel ∧ c'.results = c.results) ∨
        ∃ f x i n res, a = .operate n ∧ c.epoll.thread.calling = some f ∧ c.object f = some x ∧
          c.request f = some i ∧ D.operate c.kernel x i n = some (c'.kernel, res) ∧
            c'.results = Function.update c.results f (res :: c.results f) := by
  have hstep : ∀ {c₁ : Io V D} {b : EpollAction V}, c.epollStep b = some c₁ →
      c₁.kernel = c.kernel ∧ c₁.results = c.results := fun hs => by
    rw [(epollStep_eq_some hs).2]
    exact ⟨rfl, rfl⟩
  cases a with
  | epoll b =>
    simp only [step, Option.ite_none_right_eq_some] at h
    exact .inl (hstep h.2)
  | event e =>
    obtain ⟨k, hk, rfl⟩ := Option.map_eq_some_iff.mp h
    exact .inr (.inl ⟨e, rfl, hk, rfl⟩)
  | fdNew y raw fcntl ctl =>
    simp only [step, Option.ite_none_right_eq_some] at h
    rw [(fdNew_eq_some h.2).2]
    exact .inl ⟨rfl, rfl⟩
  | poll g i cx k =>
    simp only [step, Option.ite_none_right_eq_some] at h
    obtain ⟨c₁, hs, rfl⟩ := poll_eq_some h.2
    obtain ⟨hk, hres⟩ := hstep hs
    left
    split <;> exact ⟨hk, hres⟩
  | interrupted =>
    simp only [step, Option.ite_none_right_eq_some] at h
    exact .inl (hstep h.2)
  | operate n =>
    obtain ⟨g, y, i, hg, hy, hi, c₁, ⟨-, hs, _, _, -, rfl⟩ | ⟨k, res, hop, hs, rfl⟩⟩ := operate_cases h
    · obtain ⟨hk, hres⟩ := hstep hs
      exact .inl ⟨hk, hres⟩
    · refine .inr (.inr ⟨g, y, i, n, res, rfl, hg, hy, hi, hop, ?_⟩)
      simp [returnReady, (hstep hs).2]

/-- The `Fd` whose closure is on top of the stack is one of the device if it has an object. -/
lemma operating_eq_none_iff : c.operating = none ↔
    ∀ f, c.epoll.thread.calling = some f → c.object f = none := by
  simp [operating, Option.filter_eq_none_iff]

/-! ## Runs of the descriptors -/

/-- What is true of the descriptors and kept by all their steps, and does not depend on how ready they
are, is kept by the steps with objects.  The closures of the device would block only in the direction of
their object. -/
lemma epoll_induction {P : Epoll V → Prop} (hstep : ∀ p b p', P p → p.step b = some p' →
      (∀ d, b = .wouldBlock d → p = c.epoll ∧ ∀ f x, c.epoll.thread.calling = some f →
        c.object f = some x → d = D.direction x) → P p')
    (hrefresh : ∀ p flags, P p → P (p.refresh flags)) (hpreset : ∀ p flags, P p → P (p.preset flags))
    {a : IoAction V D} (h : c.step a = some c') (hc : P c.epoll) : P c'.epoll := by
  cases a with
  | epoll b =>
    simp only [step, Option.ite_none_right_eq_some] at h
    refine hstep _ _ _ hc (epollStep_eq_some h.2).1 ?_
    rintro d rfl
    refine ⟨rfl, fun f x hf hx => ?_⟩
    have hnone := operating_eq_none_iff.mp (by simpa [elsewhere] using h.1) f hf
    simp [hnone] at hx
  | event e =>
    obtain ⟨k, -, rfl⟩ := Option.map_eq_some_iff.mp h
    exact hrefresh _ _ hc
  | fdNew x raw fcntl ctl =>
    simp only [step, Option.ite_none_right_eq_some] at h
    exact hstep _ _ _ (hpreset _ _ hc) (fdNew_eq_some h.2).1 (by simp)
  | poll f i cx k =>
    simp only [step, Option.ite_none_right_eq_some] at h
    obtain ⟨c₁, hs, rfl⟩ := poll_eq_some h.2
    have hafter := hstep _ _ _ hc (epollStep_eq_some hs).1 (by simp)
    split <;> exact hafter
  | interrupted =>
    simp only [step, Option.ite_none_right_eq_some] at h
    exact hstep _ _ _ hc (epollStep_eq_some h.2).1 (by simp)
  | operate n =>
    obtain ⟨f, x, i, hf, hx, -, c₁, ⟨-, hs, _, _, -, rfl⟩ | ⟨k, res, -, hs, rfl⟩⟩ := operate_cases h
    · refine hstep _ _ _ hc (epollStep_eq_some hs).1 ?_
      rintro d hd
      refine ⟨rfl, fun g y hg hy => ?_⟩
      obtain rfl : f = g := Option.some.inj (hf.symm.trans hg)
      obtain rfl : x = y := Option.some.inj (hx.symm.trans hy)
      exact (EpollAction.wouldBlock.inj hd).symm
    · exact hrefresh _ _ (hstep _ _ _ hc (epollStep_eq_some hs).1 (by simp))

/-- The thread of a reachable state is reachable. -/
lemma reachable_thread {C : Io V D → IoAction V D → Prop} (h : ReachableUnder step IsStart C c) :
    Reachable Thread.step Thread.IsStart c.epoll.thread := by
  refine h.invariant (P := fun c => Reachable Thread.step Thread.IsStart c.epoll.thread)
    (fun _ h => .init h.1.1) fun c _ c' _ ih _ hs => ?_
  refine epoll_induction (P := fun p => Reachable Thread.step Thread.IsStart p.thread)
    (fun p b p' hp hs _ => ?_) (fun _ _ hp => hp) (fun _ _ hp => hp) hs ih
  rcases Epoll.step_cases hs with ⟨a, -, ha⟩ | ⟨-, -, hthread, -⟩
  · exact .next hp trivial (Epoll.threadStep_eq_some ha).2.1
  · rwa [hthread]

/-- The wakers that are noted for the `Fd`s are those that they hold. -/
lemma parkedOk_of_reachable {C : Io V D → IoAction V D → Prop} (h : ReachableUnder step IsStart C c)
    (hp : c.epoll.thread.panicked = none) : c.epoll.ParkedOk := by
  refine h.invariant (P := fun c => c.epoll.thread.panicked = none → c.epoll.ParkedOk) ?_ ?_ hp
  · rintro c ⟨⟨-, -, -, hparked⟩, -⟩ - f w hw
    simp [hparked] at hw
  · intro c a c' _ ih _ hs
    refine epoll_induction (P := fun p => p.thread.panicked = none → p.ParkedOk)
      (fun p b p' hok hs _ hp => ?_) (fun _ _ hok => hok) (fun _ _ hok => hok) hs ih
    exact Epoll.parkedOk_step hs hp (hok (Epoll.panicked_of_step hs hp))

/-! ## `Fd`s of the device -/

/-- An `Fd` of the device: it is registered for the direction of its object, and its descriptor is as
ready as this says. -/
structure Attached (c : Io V D) (f : FdId) (x : D.Object) : Prop where
  object : c.object f = some x
  watches : c.epoll.Watches f (D.direction x)
  ready : c.epoll.ready f = D.flags c.kernel x

/-- The `Fd` of an object stays registered for its direction. -/
lemma watches_of_step {a : IoAction V D} (h : c.step a = some c') (hx : c.object f = some x)
    (hw : c.epoll.Watches f (D.direction x)) : c'.epoll.Watches f (D.direction x) := by
  refine epoll_induction (P := fun p => p.Watches f (D.direction x)) (fun p b p' hp hs hb => ?_)
    (fun p flags hp => hp.refresh flags) (fun p flags hp => hp.preset flags) h hw
  refine hp.step hs fun d hd hcalling => ?_
  obtain ⟨rfl, hdir⟩ := hb d hd
  exact hdir f x hcalling hx

/-- Only `Fd::new` gives an object to an `Fd`. -/
lemma object_cases {a : IoAction V D} (h : c.step a = some c') :
    c'.object = c.object ∨ ∃ x raw ctl, a = .fdNew x raw true ctl ∧
      c'.object = Function.update c.object c.epoll.thread.nFds (some x) := by
  have hstep : ∀ {c₁ : Io V D} {b : EpollAction V}, c.epollStep b = some c₁ →
      c₁.object = c.object := fun hs => by rw [(epollStep_eq_some hs).2]
  cases a with
  | epoll b =>
    simp only [step, Option.ite_none_right_eq_some] at h
    exact .inl (hstep h.2)
  | event e =>
    obtain ⟨k, -, rfl⟩ := Option.map_eq_some_iff.mp h
    exact .inl rfl
  | fdNew y raw fcntl ctl =>
    simp only [step, Option.ite_none_right_eq_some] at h
    rw [(fdNew_eq_some h.2).2]
    cases fcntl with
    | false => exact .inl rfl
    | true => exact .inr ⟨y, raw, ctl, rfl, rfl⟩
  | poll g i cx k =>
    simp only [step, Option.ite_none_right_eq_some] at h
    obtain ⟨c₁, hs, rfl⟩ := poll_eq_some h.2
    have hobject := hstep hs
    left
    split <;> exact hobject
  | interrupted =>
    simp only [step, Option.ite_none_right_eq_some] at h
    exact .inl (hstep h.2)
  | operate n =>
    obtain ⟨g, y, i, -, -, -, c₁, ⟨-, hs, _, _, -, rfl⟩ | ⟨k, res, -, hs, rfl⟩⟩ := operate_cases h
    · have hobject := hstep hs
      exact .inl hobject
    · have hobject := hstep hs
      exact .inl hobject

/-- An `Fd` keeps its object. -/
lemma object_of_step {a : IoAction V D} (h : c.step a = some c') (hf : f < c.epoll.thread.nFds) :
    c'.object f = c.object f := by
  rcases object_cases h with hobject | ⟨x, raw, ctl, -, hobject⟩
  · rw [hobject]
  · rw [hobject, Function.update_of_ne hf.ne]

/-- Every step keeps the `Fd`s of the device. -/
lemma Attached.step {a : IoAction V D} (h : c.Attached f x) (hs : c.step a = some c') :
    c'.Attached f x := by
  have hf := h.watches.known
  have hobject : c'.object f = some x := (object_of_step hs hf).trans h.object
  refine ⟨hobject, watches_of_step hs h.object h.watches, ?_⟩
  have hthread : ∀ {c₁ : Io V D} {b : EpollAction V}, c.epollStep b = some c₁ →
      (∀ d, b ≠ .arrive f d ∧ b ≠ .recede f d) → c₁.object f = some x ∧
        c₁.epoll.ready f = D.flags c₁.kernel x := fun hs hb => by
    obtain ⟨hs, heq⟩ := epollStep_eq_some hs
    rw [Epoll.ready_of_step hs hf hb, heq]
    exact ⟨h.object, h.ready⟩
  cases a with
  | epoll b =>
    simp only [Io.step, Option.ite_none_right_eq_some] at hs
    refine (hthread hs.2 fun d => ⟨?_, ?_⟩).2
    · rintro rfl
      simp [elsewhere, h.object] at hs
    · rintro rfl
      simp [elsewhere, h.object] at hs
  | event e =>
    obtain ⟨k, -, rfl⟩ := Option.map_eq_some_iff.mp hs
    exact setKernel_ready c k h.object
  | fdNew y raw fcntl ctl =>
    simp only [Io.step, Option.ite_none_right_eq_some] at hs
    obtain ⟨hs, heq⟩ := fdNew_eq_some hs.2
    rw [Epoll.ready_of_step hs hf (by simp), heq]
    simpa [Epoll.preset, hf.ne] using h.ready
  | poll g i cx k =>
    simp only [Io.step, Option.ite_none_right_eq_some] at hs
    obtain ⟨c₁, hs₁, rfl⟩ := poll_eq_some hs.2
    have hready := (hthread hs₁ (by simp)).2
    split <;> exact hready
  | interrupted =>
    simp only [Io.step, Option.ite_none_right_eq_some] at hs
    exact (hthread hs.2 (by simp)).2
  | operate n =>
    obtain ⟨g, y, i, -, -, -, c₁, ⟨-, hs₁, _, _, -, rfl⟩ | ⟨k, res, -, hs₁, rfl⟩⟩ := operate_cases hs
    · exact (hthread hs₁ (by simp)).2
    · exact setKernel_ready c₁ k (hthread hs₁ (by simp)).1

/-- A new `Fd` of the device. -/
lemma attached_of_none {a : IoAction V D} (h : c.step a = some c') (hnone : c.object f = none)
    (hx : c'.object f = some x) : c'.Attached f x := by
  rcases object_cases h with hobject | ⟨y, raw, ctl, rfl, hobject⟩
  · simp [hobject, hnone] at hx
  · have hf : f = c.epoll.thread.nFds := by
      by_contra hne
      simp [hobject, hne, hnone] at hx
    subst hf
    obtain rfl : y = x := by simpa [hobject] using hx
    simp only [step, Option.ite_none_right_eq_some] at h
    obtain ⟨hs, heq⟩ := fdNew_eq_some h.2
    have hw := Epoll.watches_of_fdNew hs
    rw [D.direction_le] at hw
    refine ⟨hx, hw, ?_⟩
    have hready : c'.epoll.ready c.epoll.thread.nFds = D.flags c.kernel y := by
      rw [(Epoll.threadStep_eq_some hs).2.2]
      simp [Epoll.opened, Epoll.preset]
    rw [hready, heq]

/-- In every reachable state the descriptors of the device are as ready as their objects say, and their
`Fd`s have been told so if no edge is queued. -/
lemma attached_of_reachable {C : Io V D → IoAction V D → Prop} (h : ReachableUnder step IsStart C c)
    (hx : c.object f = some x) : c.Attached f x := by
  induction h generalizing f x with
  | init h => simp [h.2.2.1] at hx
  | @next c c' a hr _ hs ih =>
    cases hbefore : c.object f with
    | none => exact attached_of_none hs hbefore hx
    | some y =>
      have hat := (ih hbefore).step hs
      obtain rfl : y = x := Option.some.inj (hat.object.symm.trans hx)
      exact hat

/-- An `Fd` with no events and no queued edge is not ready. -/
lemma Attached.not_ready (h : c.Attached f x) (hp : c.epoll.thread.panicked = none)
    (hreg : c.epoll.thread.inInterest f) (hedge : c.epoll.edge f = 0)
    (hevents : (c.epoll.thread.fds f).ew.events = 0) : D.ready c.kernel x = false := by
  by_contra hready
  have hflags : D.flags c.kernel x = D.direction x := if_pos (by simpa using hready)
  refine h.watches.events hp hreg ?_ hedge hevents
  rw [h.ready, hflags, BitVec.and_self]
  exact D.direction_ne x

/-! ## Objects with one `Fd` -/

/-- The `Fd` is made for the object, and no other `Fd` is. -/
def Assigned (f : FdId) (x : D.Object) (c : Io V D) : IoAction V D → Prop
  | .fdNew y _ _ _ => y = x ↔ c.epoll.thread.nFds = f
  | _ => True

instance [DecidableEq D.Object] (f : FdId) (x : D.Object) (c : Io V D) (a : IoAction V D) :
    Decidable (Assigned f x c a) := by
  unfold Assigned
  split <;> infer_instance

/-- The `Fd` is for the object, if it is for any, and no other `Fd` is. -/
def Owns (c : Io V D) (f : FdId) (x : D.Object) : Prop :=
  ∀ g y, c.object g = some y → (y = x ↔ g = f)

/-- An object for which one `Fd` is made has only this `Fd`. -/
lemma owns_of_reachable (h : ReachableUnder step IsStart (Assigned f x) c) : c.Owns f x := by
  refine h.invariant (P := fun c => c.Owns f x) (fun c h g y hy => ?_) fun c a c' _ ih hC hs g y hy => ?_
  · simp [h.2.2.1] at hy
  · rcases object_cases hs with hobject | ⟨z, raw, ctl, rfl, hobject⟩
    · exact ih g y (hobject ▸ hy)
    · by_cases hg : g = c.epoll.thread.nFds
      · subst hg
        obtain rfl : z = y := by simpa [hobject] using hy
        exact hC
      · rw [hobject, Function.update_of_ne hg] at hy
        exact ih g y hy

/-! ## Steps that are about an `Fd` -/

/-- Nothing is returned by a poll of the `Fd`, and to the `Fd` no more happens than that flags are set. -/
structure Kept (f : FdId) (c c' : Io V D) : Prop where
  pendings : c'.pendings f = c.pendings f
  results : c'.results f = c.results f
  waiting : c'.waiting f = c.waiting f
  fd : Epoll.FdKept f c.epoll c'.epoll

/-- A step that polls an `Fd` or runs its closure, or that leaves it alone. -/
inductive StepOn (c : Io V D) (f : FdId) : IoAction V D → Io V D → Prop
  | kept {a : IoAction V D} {c' : Io V D} (h : Kept f c c') : StepOn c f a c'
  | poll {i : D.Request} {cx : Waker} {k : KernelAnswer} {c' : Io V D} (h : c.poll f i cx k = some c') :
      StepOn c f (.poll f i cx k) c'
  | operate {n : D.Choice} {c' : Io V D} (hf : c.epoll.thread.calling = some f)
      (h : c.operate n = some c') : StepOn c f (.operate n) c'

/-- A step of the thread or of a descriptor that spares an `Fd`. -/
lemma kept_of_epollStep {b : EpollAction V} (h : c.epollStep b = some c') (hb : Epoll.Spares f c.epoll b)
    (hr : Reachable Thread.step Thread.IsStart c.epoll.thread) (hok : c.epoll.ParkedOk)
    (hp : c'.epoll.thread.panicked = none) (hf : f < c.epoll.thread.nFds) : Kept f c c' := by
  obtain ⟨hs, heq⟩ := epollStep_eq_some h
  exact ⟨by rw [heq], by rw [heq], by rw [heq], hb.kept hs hr hok hp hf⟩

/-- What is not about an `Fd` of the device spares all of them. -/
lemma spares_of_elsewhere {b : EpollAction V} (h : c.elsewhere b = true) (hx : c.object f = some x) :
    Epoll.Spares f c.epoll b := by
  have hcalling : c.operating = none → c.epoll.thread.calling ≠ some f := fun ho hc => by
    simp [operating_eq_none_iff.mp ho f hc] at hx
  cases b with
  | thread a =>
    refine ⟨?_, ?_⟩
    · rintro cx k rfl
      simp [elsewhere, hx] at h
    · rintro r rfl
      exact hcalling (by simpa [elsewhere, Action.isForeign] using h)
  | wouldBlock d => exact hcalling (by simpa [elsewhere] using h)
  | arrive g d | recede g d =>
    rintro rfl
    simp [elsewhere, hx] at h
  | _ => trivial

/-- A system call that fails with `EINTR` changes nothing. -/
lemma kept_of_interrupted (h : c.epollStep (.thread (.closure .interrupted)) = some c') : Kept f c c' := by
  obtain ⟨hs, heq⟩ := epollStep_eq_some h
  obtain ⟨-, hthread, hepoll⟩ := Epoll.threadStep_eq_some hs
  have hsame : c'.epoll.thread = c.epoll.thread := by
    have hact := Thread.act_of_step hthread
    simp only [Thread.act, Thread.closure] at hact
    split at hact
    · simp only [EpollWaker.pollWithReturn] at hact
      exact (Option.some.inj hact).symm
    · simp at hact
  refine ⟨by rw [heq], by rw [heq], by rw [heq], .of_eq hsame ?_⟩
  have hparked : c'.epoll.parked f = c.epoll.parkedAfter (.closure .interrupted) f := by
    rw [hepoll]
    rfl
  rw [hparked]
  simp only [Epoll.parkedAfter]
  split
  · exact ite_self _
  · rfl

/-- Every step is about an `Fd` of the device or leaves it alone. -/
lemma stepOn_of_step {a : IoAction V D} (h : c.step a = some c')
    (hr : Reachable Thread.step Thread.IsStart c.epoll.thread) (hok : c.epoll.ParkedOk)
    (hp : c'.epoll.thread.panicked = none) (hx : c.object f = some x) (hf : f < c.epoll.thread.nFds) :
    StepOn c f a c' := by
  cases a with
  | epoll b =>
    simp only [step, Option.ite_none_right_eq_some] at h
    exact .kept (kept_of_epollStep h.2 (spares_of_elsewhere h.1 hx) hr hok hp hf)
  | event e =>
    obtain ⟨k, -, rfl⟩ := Option.map_eq_some_iff.mp h
    exact .kept ⟨rfl, rfl, rfl, .of_eq rfl rfl⟩
  | fdNew y raw fcntl ctl =>
    simp only [step, Option.ite_none_right_eq_some] at h
    obtain ⟨hs, heq⟩ := fdNew_eq_some h.2
    have hkept := Epoll.Spares.kept (f := f) (by simp [Epoll.Spares]) hs hr hok hp hf
    exact .kept ⟨by rw [heq], by rw [heq], by rw [heq], hkept.ew, hkept.parked⟩
  | poll g i cx k =>
    simp only [step, Option.ite_none_right_eq_some] at h
    by_cases hg : f = g
    · subst hg
      exact .poll h.2
    · obtain ⟨c₁, hs, rfl⟩ := poll_eq_some h.2
      have hkept : c₁.epoll.thread.panicked = none → Kept f c c₁ := fun hp =>
        kept_of_epollStep hs (by simp [Epoll.Spares, Ne.symm hg]) hr hok hp hf
      split at hp
      · have hk := hkept hp
        exact .kept ⟨hk.pendings, hk.results, by simpa [hg] using hk.waiting, hk.fd⟩
      · have hk := hkept hp
        obtain ⟨hpendings, hwaiting⟩ := c₁.returnPending_of_ne g cx c.epoll.thread.log.length hg
        exact .kept ⟨hpendings.trans hk.pendings, hk.results, hwaiting.trans hk.waiting, hk.fd⟩
  | interrupted =>
    simp only [step, Option.ite_none_right_eq_some] at h
    exact .kept (kept_of_interrupted h.2)
  | operate n =>
    obtain ⟨g, y, i, hcalling, -, -, c₁, hop⟩ := operate_cases h
    by_cases hg : f = g
    · subst hg
      exact .operate hcalling h
    · have hne : c.epoll.thread.calling ≠ some f := fun hc => hg (Option.some.inj (hc.symm.trans hcalling))
      rcases hop with ⟨-, hs, cx, _, -, rfl⟩ | ⟨k, res, -, hs, rfl⟩
      · have hk := kept_of_epollStep (f := f) hs hne hr hok hp hf
        obtain ⟨hpendings, hwaiting⟩ := c₁.returnPending_of_ne g cx c.epoll.thread.log.length hg
        exact .kept ⟨hpendings.trans hk.pendings, hk.results, hwaiting.trans hk.waiting, hk.fd⟩
      · have hk := kept_of_epollStep (f := f) hs ⟨by simp, fun _ _ => hne⟩ hr hok hp hf
        obtain ⟨hresults, hwaiting⟩ := (c₁.setKernel k).returnReady_of_ne g res hg
        exact .kept ⟨hk.pendings, hresults.trans hk.results, hwaiting.trans hk.waiting, hk.fd.ew,
          hk.fd.parked⟩

/-- A request that is in progress after a step was so before it, or the step is the poll that makes it. -/
lemma request_of_step {a : IoAction V D} (h : c.step a = some c') {i : D.Request}
    (hi : c'.request f = some i) : c.request f = some i ∨ ∃ cx k, a = .poll f i cx k := by
  have hstep : ∀ {c₁ : Io V D} {b : EpollAction V}, c.epollStep b = some c₁ →
      c₁.request = c.request := fun hs => by rw [(epollStep_eq_some hs).2]
  have hreturn : ∀ {c₁ : Io V D} (g : FdId), c₁.request = c.request →
      Function.update c₁.request g none f = some i → c.request f = some i := fun g hc hg => by
    by_cases hfg : f = g
    · simp [hfg] at hg
    · rwa [Function.update_of_ne hfg, hc] at hg
  cases a with
  | epoll b =>
    simp only [step, Option.ite_none_right_eq_some] at h
    exact .inl (hstep h.2 ▸ hi)
  | event e =>
    obtain ⟨k, hk, rfl⟩ := Option.map_eq_some_iff.mp h
    exact .inl hi
  | fdNew y raw fcntl ctl =>
    simp only [step, Option.ite_none_right_eq_some] at h
    rw [(fdNew_eq_some h.2).2] at hi
    exact .inl hi
  | poll g j cx k =>
    simp only [step, Option.ite_none_right_eq_some] at h
    obtain ⟨c₁, hs, rfl⟩ := poll_eq_some h.2
    split at hi
    · by_cases hfg : f = g
      · subst hfg
        obtain rfl : j = i := by simpa using hi
        exact .inr ⟨cx, k, rfl⟩
      · have hother : c₁.request f = some i := by simpa [hfg] using hi
        exact .inl (hstep hs ▸ hother)
    · exact .inl (hreturn g (hstep hs) hi)
  | interrupted =>
    simp only [step, Option.ite_none_right_eq_some] at h
    exact .inl (hstep h.2 ▸ hi)
  | operate n =>
    obtain ⟨g, y, j, -, -, -, c₁, ⟨-, hs, _, _, -, rfl⟩ | ⟨k, res, -, hs, rfl⟩⟩ := operate_cases h
    · exact .inl (hreturn g (hstep hs) hi)
    · have hrequest := hstep hs
      exact .inl (hreturn g hrequest hi)

/-! ## Callers that wait -/

/-- The waker that was given to the last poll of the `Fd`, if the poll has returned `Poll::Pending` and the
waker has not been invoked since. -/
def asleep (c : Io V D) (f : FdId) : Option Waker :=
  ((c.waiting f).filter fun p => !decide (p.1.InvokedIn (c.epoll.thread.since p.2))).map Prod.fst

/-- The caller of the last poll waits for its waker to be invoked. -/
lemma asleep_eq_some {w : Waker} : c.asleep f = some w ↔
    ∃ n, c.waiting f = some (w, n) ∧ ¬ w.InvokedIn (c.epoll.thread.since n) := by
  simp only [asleep, Option.map_eq_some_iff, Option.filter_eq_some_iff, Bool.not_eq_true',
    decide_eq_false_iff_not]
  constructor
  · rintro ⟨⟨w, n⟩, ⟨hw, hnot⟩, rfl⟩
    exact ⟨n, hw, hnot⟩
  · rintro ⟨n, hw, hnot⟩
    exact ⟨(w, n), ⟨hw, hnot⟩, rfl⟩

/-- The waker of a task that was given to the last poll of the `Fd` and has not been invoked since is with
the `Fd`, as long as the task can be woken. -/
structure Rests (c : Io V D) (f : FdId) : Prop where
  le : ∀ w n, c.waiting f = some (w, n) → n ≤ c.epoll.thread.log.length
  parked : ∀ t, c.asleep f = some (.task t) → c.epoll.thread.Wakeable t →
    c.epoll.parked f = some (.task t)

/-- Nobody waits. -/
lemma Rests.of_none (h : c.waiting f = none) : c.Rests f :=
  ⟨by simp [h], by simp [asleep, h]⟩

/-- A step that leaves the `Fd` alone. -/
lemma Rests.kept (h : c.Rests f) (hk : Kept f c c') : c'.Rests f := by
  obtain ⟨l, hl, hkeep⟩ := hk.fd.parked
  refine ⟨fun w n hw => ?_, fun t ht hwakeable => ?_⟩
  · have hle := h.le w n (hk.waiting ▸ hw)
    rw [hl, List.length_append]
    exact hle.trans (Nat.le_add_left ..)
  · obtain ⟨n, hw, hnot⟩ := asleep_eq_some.mp ht
    rw [hk.waiting] at hw
    rw [Thread.since_of_log hl (h.le _ n hw)] at hnot
    have henqueued : .enqueued t ∉ l := fun hm => hnot (.inr ⟨t, rfl, List.mem_append_left _ hm⟩)
    obtain ⟨hbefore, hparked⟩ := hkeep t hwakeable henqueued
    have hasleep : c.asleep f = some (.task t) :=
      asleep_eq_some.mpr ⟨n, hw, fun hin => hnot (hin.mono (List.subset_append_right ..))⟩
    exact hparked (h.parked t hasleep hbefore)

/-- A poll that has returned `Poll::Pending`: its waker is with the `Fd`, or has been invoked. -/
lemma Rests.of_pending {cx : Waker} {l : List Event} (hw : c'.waiting f = some (cx, c.epoll.thread.log.length))
    (hl : c'.epoll.thread.log = l ++ c.epoll.thread.log)
    (hcx : c'.epoll.parked f = some cx ∨ ∀ e ∈ cx.event, e ∈ l) : c'.Rests f := by
  refine ⟨fun w n hw' => ?_, fun t ht _ => ?_⟩
  · obtain ⟨-, rfl⟩ := Prod.mk.inj (Option.some.inj (hw.symm.trans hw'))
    simp [hl]
  · obtain ⟨n, hw', hnot⟩ := asleep_eq_some.mp ht
    obtain ⟨rfl, rfl⟩ := Prod.mk.inj (Option.some.inj (hw.symm.trans hw'))
    refine hcx.resolve_right fun hinvoked => hnot (.inl ⟨.woken t, rfl, ?_⟩)
    rw [Thread.since_of_log hl le_rfl]
    exact List.mem_append_left _ (hinvoked _ rfl)

/-- Every step keeps the waker of the last poll where it is until it is invoked. -/
lemma Rests.stepOn {a : IoAction V D} (h : c.Rests f) (hon : StepOn c f a c')
    (hr : Reachable Thread.step Thread.IsStart c.epoll.thread) (hp : c'.epoll.thread.panicked = none) :
    c'.Rests f := by
  have hgrows : ∀ {c₁ : Io V D} {a : Action V}, c.epoll.threadStep a = some c₁.epoll →
      c₁.epoll.thread.panicked = none → ∃ l, c₁.epoll.thread.log = l ++ c.epoll.thread.log :=
    fun hs hp => (Thread.wakeable_of_step hr (Epoll.threadStep_eq_some hs).2.1 hp).imp fun _ h => h.1
  cases hon with
  | kept hkept => exact h.kept hkept
  | @poll i cx k _ hs =>
    obtain ⟨c₁, hs₁, rfl⟩ := poll_eq_some hs
    obtain ⟨hs₁, -⟩ := epollStep_eq_some hs₁
    have hthread := (Epoll.threadStep_eq_some hs₁).2.1
    cases he : (c.epoll.thread.fds f).ew.pollWithEnter cx with
    | pending ew =>
      simp only [he, returnPending_epoll] at hp ⊢
      obtain ⟨l, hl⟩ := hgrows hs₁ hp
      exact .of_pending (returnPending_self ..) hl (.inl (Epoll.parked_of_pending hs₁ he))
    | yield ew =>
      simp only [he, returnPending_epoll] at hp ⊢
      obtain ⟨l, hl, hinvoked⟩ := Thread.invoked_of_yield hthread hp he
      exact .of_pending (returnPending_self ..) hl (.inr hinvoked)
    | call => exact .of_none (by simp)
  | operate hf hs =>
    obtain ⟨g, y, i, hg, -, -, c₁, ⟨-, hs₁, cx, rest, hstack, rfl⟩ | ⟨k, res, -, -, rfl⟩⟩ :=
      operate_cases hs
    · obtain rfl : f = g := Option.some.inj (hf.symm.trans hg)
      obtain ⟨hs₁, -⟩ := epollStep_eq_some hs₁
      rw [returnPending_epoll] at hp
      obtain ⟨l, hl⟩ := hgrows (Epoll.threadStep_of_wouldBlock hs₁) hp
      exact .of_pending (returnPending_self ..) hl (.inl (Epoll.parked_of_wouldBlock hs₁ hstack))
    · obtain rfl : f = g := Option.some.inj (hf.symm.trans hg)
      exact .of_none (by simp [returnReady])

/-- Nobody waits for an `Fd` that is not one of the device. -/
lemma waiting_of_step {a : IoAction V D} (h : c.step a = some c') (hx : c.object f = none) :
    c'.waiting f = c.waiting f := by
  have hstep : ∀ {c₁ : Io V D} {b : EpollAction V}, c.epollStep b = some c₁ →
      c₁.waiting = c.waiting := fun hs => by rw [(epollStep_eq_some hs).2]
  have hne : ∀ {g : FdId}, c.object g ≠ none → f ≠ g := fun hg hfg => hg (hfg ▸ hx)
  cases a with
  | epoll b =>
    simp only [step, Option.ite_none_right_eq_some] at h
    rw [hstep h.2]
  | event e =>
    obtain ⟨k, hk, rfl⟩ := Option.map_eq_some_iff.mp h
    rfl
  | fdNew y raw fcntl ctl =>
    simp only [step, Option.ite_none_right_eq_some] at h
    rw [(fdNew_eq_some h.2).2]
  | poll g i cx k =>
    simp only [step, Option.ite_none_right_eq_some, Bool.and_eq_true] at h
    have hg := hne (Option.isSome_iff_ne_none.mp h.1.2)
    obtain ⟨c₁, hs, rfl⟩ := poll_eq_some h.2
    split
    · simp [hg, hstep hs]
    · rw [(c₁.returnPending_of_ne g _ _ hg).2, hstep hs]
  | interrupted =>
    simp only [step, Option.ite_none_right_eq_some] at h
    rw [hstep h.2]
  | operate n =>
    obtain ⟨g, y, i, -, hg, -, c₁, ⟨-, hs, cx, rest, -, rfl⟩ | ⟨k, res, -, hs, rfl⟩⟩ := operate_cases h
    · rw [(c₁.returnPending_of_ne g _ _ (hne (by simp [hg]))).2, hstep hs]
    · rw [((c₁.setKernel k).returnReady_of_ne g _ (hne (by simp [hg]))).2, setKernel_waiting, hstep hs]

/-- A thread that has panicked stays so. -/
lemma panicked_of_step {a : IoAction V D} (h : c.step a = some c') (hp : c'.epoll.thread.panicked = none) :
    c.epoll.thread.panicked = none := by
  by_contra hn
  exact epoll_induction (P := fun p => p.thread.panicked ≠ none)
    (fun _ _ _ hn hs _ hp => hn (Epoll.panicked_of_step hs hp)) (fun _ _ => id) (fun _ _ => id) h hn hp

/-- In every reachable state that has not panicked the wakers that tasks wait for are with their `Fd`s. -/
lemma rests_of_reachable {C : Io V D → IoAction V D → Prop} (h : ReachableUnder step IsStart C c)
    (hp : c.epoll.thread.panicked = none) : c.Rests f := by
  have hboth : (c.object f = none → c.waiting f = none) ∧ c.Rests f := by
    refine h.invariant (P := fun c => c.epoll.thread.panicked = none →
      (c.object f = none → c.waiting f = none) ∧ c.Rests f) ?_ ?_ hp
    · rintro c h -
      exact ⟨fun _ => (h.2.2.2.1 f).2, .of_none ((h.2.2.2.1 f).2)⟩
    · intro c a c' hr ih _ hs hp
      have hp₀ := panicked_of_step hs hp
      obtain ⟨hnone, hrests⟩ := ih hp₀
      cases hx : c.object f with
      | none =>
        have hw : c'.waiting f = none := (waiting_of_step hs hx).trans (hnone hx)
        exact ⟨fun _ => hw, .of_none hw⟩
      | some x =>
        have hat := attached_of_reachable hr hx
        have hon := stepOn_of_step hs (reachable_thread hr) (parkedOk_of_reachable hr hp₀) hp hx
          hat.watches.known
        refine ⟨fun hnone => ?_, hrests.stepOn hon (reachable_thread hr) hp⟩
        simp [(hat.step hs).object] at hnone
  exact hboth.2

/-! ## Operations that are possible -/

/-- What a step makes of an `Fd` whose descriptor is ready: a poll of it returns `Poll::Ready`, or none
does. In the second case an `Fd` that has events keeps them, and a poll of it returns `Poll::Pending` only
because of the burst limit; then its next poll does not. -/
structure Onward (f : FdId) (c c' : Io V D) : Prop where
  results : c'.results f = c.results f
  events : (c.epoll.thread.fds f).ew.events ≠ 0 → (c'.epoll.thread.fds f).ew.events ≠ 0
  burst : (c.epoll.thread.fds f).ew.events ≠ 0 → (c.epoll.thread.fds f).ew.burst < burstLimit →
    (c'.epoll.thread.fds f).ew.burst < burstLimit ∧ c'.pendings f = c.pendings f
  yields : (c.epoll.thread.fds f).ew.events ≠ 0 → c'.pendings f ≠ c.pendings f →
    (c'.epoll.thread.fds f).ew.burst < burstLimit

/-- Setting flags does not clear any. -/
lemma flag_events_ne_zero {ew : EpollWaker} (h : ew.events ≠ 0) (e : EpollFlags) : (ew.flag e).events ≠ 0 :=
  fun h0 => h (BitVec.or_eq_zero_iff.mp h0).1

/-- A poll of an `Fd`, up to the closure. -/
lemma onward_of_poll {i : D.Request} {cx : Waker} {k : KernelAnswer} (h : c.poll f i cx k = some c')
    (hp : c'.epoll.thread.panicked = none) : Onward f c c' := by
  obtain ⟨c₁, hs, rfl⟩ := poll_eq_some h
  obtain ⟨hs, heq⟩ := epollStep_eq_some hs
  have hp₁ : c₁.epoll.thread.panicked = none := by
    revert hp
    split <;> exact id
  have hew := Thread.step_ew (Epoll.threadStep_eq_some hs).2.1 hp₁ (f := f) (by simp)
  have henter := (c.epoll.thread.fds f).ew.pollWithEnter_spec cx
  simp only [Thread.polledEw, if_true] at hew
  have hresults : c₁.results f = c.results f := by rw [heq]
  have hpendings : c₁.pendings f = c.pendings f := by rw [heq]
  cases he : (c.epoll.thread.fds f).ew.pollWithEnter cx with
  | pending ew =>
    simp only [he] at henter
    exact ⟨hresults, fun hev => absurd henter.1 hev, fun hev => absurd henter.1 hev,
      fun hev => absurd henter.1 hev⟩
  | yield ew =>
    -- The call has reset the counter and left the events alone.
    simp only [he] at henter hew
    obtain ⟨hev, hlimit, rfl⟩ := henter
    refine ⟨hresults, fun hev => ?_, fun _ hb => absurd hlimit hb.not_ge, fun _ _ => ?_⟩
    · rw [returnPending_epoll, hew]
      exact flag_events_ne_zero hev _
    · rw [returnPending_epoll, hew]
      exact Nat.zero_lt_of_lt (by decide : 0 < burstLimit)
  | call =>
    simp only [he] at hew
    refine ⟨hresults, fun hev => ?_, fun _ hb => ⟨?_, hpendings⟩, fun _ hne => absurd hpendings hne⟩
    · rw [hew]
      exact flag_events_ne_zero hev _
    · rw [hew]
      exact hb

/-- Every step, while the descriptor of the `Fd` is ready. -/
lemma StepOn.onward {a : IoAction V D} (h : StepOn c f a c') (hx : c.object f = some x)
    (hready : D.ready c.kernel x = true) (hp : c'.epoll.thread.panicked = none) :
    c'.results f ≠ c.results f ∨ Onward f c c' := by
  cases h with
  | kept hkept =>
    obtain ⟨e, he⟩ := hkept.fd.ew
    refine .inr ⟨hkept.results, fun hev => ?_, fun _ hb => ⟨?_, hkept.pendings⟩,
      fun _ hne => absurd hkept.pendings hne⟩
    · rw [he]
      exact flag_events_ne_zero hev e
    · rw [he]
      exact hb
  | poll hs => exact .inr (onward_of_poll hs hp)
  | operate hf hs =>
    obtain ⟨g, y, i, hg, hy, -, c₁, ⟨hop, -⟩ | ⟨k, res, -, hs₁, rfl⟩⟩ := operate_cases hs
    · obtain rfl : f = g := Option.some.inj (hf.symm.trans hg)
      obtain rfl : x = y := Option.some.inj (hx.symm.trans hy)
      exact absurd hop (D.operates _ _ _ _ hready)
    · obtain rfl : f = g := Option.some.inj (hf.symm.trans hg)
      left
      rw [returnReady_self, setKernel_results, (epollStep_eq_some hs₁).2]
      exact List.cons_ne_self _ _

/-! ## Endless runs -/

section Runs

variable {r : EndlessRun (step (V := V) (D := D))} {A : Io V D → Prop} {l : List D.Result}

/-- An `Fd` of the device stays so. -/
lemma attached_of_run (h : (r.state 0).Attached f x) (n : ℕ) : (r.state n).Attached f x := by
  induction n with
  | zero => exact h
  | succ n ih => exact ih.step (r.next n)

/-- So many polls of the `Fd` have returned `Poll::Pending`, and these are the results of the others. -/
def Count (c : Io V D) (f : FdId) (j : ℕ) (l : List D.Result) : Prop := c.pendings f = j ∧ c.results f = l

/-- If the caller of the last poll waits for its waker, it is a task, which has not completed and of which
there is a reference. -/
def Tended (c : Io V D) (f : FdId) : Prop :=
  ∀ w ∈ c.asleep f, ∃ t ∈ w.taskId, c.epoll.thread.Wakeable t

instance (c : Io V D) (f : FdId) : Decidable (c.Tended f) :=
  inferInstanceAs (Decidable (∀ w ∈ c.asleep f, ∃ t ∈ w.taskId, c.epoll.thread.Wakeable t))

/-- What the rest of the program and the kernel do in a run for an `Fd`.  Nothing panics; and as long as
an operation on the `Fd` is awaited (`A`), the `Fd` stays registered with the executor of the thread, the
edges of its descriptor are delivered, and it is polled by tasks that can be woken: if the last poll has
returned `Poll::Pending`, once the waker that was given to this poll has been invoked, and otherwise anyway.
Every poll returns. -/
structure Fair (r : EndlessRun (step (V := V) (D := D))) (f : FdId) (A : Io V D → Prop) : Prop where
  running : ∀ n, (r.state n).epoll.thread.panicked = none
  registered : ∀ n, A (r.state n) → (r.state n).epoll.thread.inInterest f
  served : r.LeadsTo A fun c => c.epoll.edge f = 0 ∨ ¬ A c
  tended : ∀ n, A (r.state n) → (r.state n).Tended f
  polled : ∀ j l, r.LeadsTo (fun c => A c ∧ c.Count f j l ∧ c.asleep f = none) fun c =>
    ¬ A c ∨ ¬ c.Count f j l

/-- What is awaited less is awaited fairly. -/
lemma Fair.mono {B : Io V D → Prop} (hfair : Fair r f A) (h : ∀ c, B c → A c) : Fair r f B where
  running := hfair.running
  registered n hn := hfair.registered n (h _ hn)
  served := hfair.served.mono (fun _ => h _) fun _ => Or.imp_right (mt (h _))
  tended n hn := hfair.tended n (h _ hn)
  polled j l := (hfair.polled j l).mono (fun _ => And.imp_left (h _)) fun _ => Or.imp_left (mt (h _))

/-- An `Fd` that has events has no caller that waits: `epoll_wait` has enqueued its task. -/
lemma Fair.asleep_eq_none (hfair : Fair r f A) (h : Reachable step IsStart (r.state 0)) {n : ℕ}
    (hn : A (r.state n)) (hev : ((r.state n).epoll.thread.fds f).ew.events ≠ 0) :
    (r.state n).asleep f = none := by
  by_contra hne
  obtain ⟨w, hw⟩ := Option.ne_none_iff_exists'.mp hne
  obtain ⟨t, ht, hwakeable⟩ := hfair.tended n hn w hw
  obtain rfl : w = .task t := by
    cases w <;> simp_all [Waker.taskId]
  have hr := r.reachable h n
  have hparked := (rests_of_reachable hr (hfair.running n)).parked t hw hwakeable
  exact hev (parkedOk_of_reachable hr (hfair.running n) f _ hparked).events

/-- The operation on the `Fd` is awaited and possible. -/
structure Possible (c : Io V D) (f : FdId) (x : D.Object) (A : Io V D → Prop) (l : List D.Result) : Prop where
  awaited : A c
  attached : c.Attached f x
  ready : D.ready c.kernel x = true
  results : c.results f = l

/-- Every step, as long as no poll of the `Fd` returns `Poll::Ready` and the operation stays possible. -/
lemma onward_of_run (h : Reachable step IsStart (r.state 0))
    (hp : ∀ n, (r.state n).epoll.thread.panicked = none) {n : ℕ} (hn : (r.state n).Possible f x A l) :
    (r.state (n + 1)).results f ≠ l ∨ Onward f (r.state n) (r.state (n + 1)) := by
  have hr := r.reachable h n
  have hon := stepOn_of_step (r.next n) (reachable_thread hr) (parkedOk_of_reachable hr (hp n)) (hp (n + 1))
    hn.attached.object hn.attached.watches.known
  have hafter := hon.onward hn.attached.object hn.ready (hp (n + 1))
  rwa [hn.results] at hafter

/-- The `Fd` has events, and its next poll does not yield. -/
lemma leadsTo_results_of_burst (h : Reachable step IsStart (r.state 0)) (hfair : Fair r f A)
    (hstays : r.Unless (fun c => c.Possible f x A l) fun c => c.results f ≠ l ∨ ¬ A c) :
    r.LeadsTo (fun c => c.Possible f x A l ∧ (c.epoll.thread.fds f).ew.events ≠ 0 ∧
      (c.epoll.thread.fds f).ew.burst < burstLimit) fun c => c.results f ≠ l ∨ ¬ A c := by
  rintro n ⟨hn, hev, hb⟩
  have hkeeps : r.Unless (fun c => c.Possible f x A l ∧ (c.epoll.thread.fds f).ew.events ≠ 0 ∧
      (c.epoll.thread.fds f).ew.burst < burstLimit ∧ c.pendings f = (r.state n).pendings f)
        fun c => c.results f ≠ l ∨ ¬ A c := by
    rintro m ⟨hm, hevm, hbm, hjm⟩
    rcases onward_of_run h hfair.running hm with hres | hon
    · exact .inr (.inl hres)
    · obtain ⟨hb', hj'⟩ := hon.burst hevm hbm
      exact (hstays m hm).imp_left fun hm' => ⟨hm', hon.events hevm, hb', hj'.trans hjm⟩
  have hasleep := hfair.asleep_eq_none h hn.awaited hev
  obtain ⟨m, hnm, hm⟩ := (hfair.polled ((r.state n).pendings f) l).unless hkeeps n
    ⟨⟨hn.awaited, ⟨rfl, hn.results⟩, hasleep⟩, hn, hev, hb, rfl⟩
  rcases hm with ⟨hnot | hcount, hm, -, -, hj⟩ | hdone
  · exact ⟨m, hnm, .inr hnot⟩
  · exact absurd ⟨hj, hm.results⟩ hcount
  · exact ⟨m, hnm, hdone⟩

/-- The `Fd` has events: its next poll may yield, and then the one after it does not. -/
lemma leadsTo_results_of_events (h : Reachable step IsStart (r.state 0)) (hfair : Fair r f A)
    (hstays : r.Unless (fun c => c.Possible f x A l) fun c => c.results f ≠ l ∨ ¬ A c) :
    r.LeadsTo (fun c => c.Possible f x A l ∧ (c.epoll.thread.fds f).ew.events ≠ 0) fun c =>
      c.results f ≠ l ∨ ¬ A c := by
  rintro n ⟨hn, hev⟩
  have hkeeps : r.Unless (fun c => c.Possible f x A l ∧ (c.epoll.thread.fds f).ew.events ≠ 0 ∧
      c.pendings f = (r.state n).pendings f) fun c => (c.results f ≠ l ∨ ¬ A c) ∨ c.Possible f x A l ∧
        (c.epoll.thread.fds f).ew.events ≠ 0 ∧ (c.epoll.thread.fds f).ew.burst < burstLimit := by
    rintro m ⟨hm, hevm, hjm⟩
    rcases onward_of_run h hfair.running hm with hres | hon
    · exact .inr (.inl (.inl hres))
    · rcases hstays m hm with hm' | hdone
      · by_cases hj : (r.state (m + 1)).pendings f = (r.state m).pendings f
        · exact .inl ⟨hm', hon.events hevm, hj.trans hjm⟩
        · exact .inr (.inr ⟨hm', hon.events hevm, hon.yields hevm hj⟩)
      · exact .inr (.inl hdone)
  have hasleep := hfair.asleep_eq_none h hn.awaited hev
  obtain ⟨m, hnm, hm⟩ := (hfair.polled ((r.state n).pendings f) l).unless hkeeps n
    ⟨⟨hn.awaited, ⟨rfl, hn.results⟩, hasleep⟩, hn, hev, rfl⟩
  rcases hm with ⟨hnot | hcount, hm, -, hj⟩ | hdone | hlow
  · exact ⟨m, hnm, .inr hnot⟩
  · exact absurd ⟨hj, hm.results⟩ hcount
  · exact ⟨m, hnm, hdone⟩
  · obtain ⟨i, hmi, hi⟩ := leadsTo_results_of_burst h hfair hstays m hlow
    exact ⟨i, Nat.le_trans hnm hmi, hi⟩

/-- An operation that is awaited and stays possible is carried out: the edge of the descriptor is
delivered, if it has one, the `Fd` remembers this, and it is polled until its poll returns `Poll::Ready`.
-/
theorem leadsTo_results (h : Reachable step IsStart (r.state 0)) (hfair : Fair r f A)
    (hstays : r.Unless (fun c => c.Possible f x A l) fun c => c.results f ≠ l ∨ ¬ A c) :
    r.LeadsTo (fun c => c.Possible f x A l) fun c => c.results f ≠ l ∨ ¬ A c := by
  refine ((hfair.served.unless hstays).mono (fun n hn => ⟨hn.awaited, hn⟩) ?_).cancel
    (leadsTo_results_of_events h hfair hstays)
  rintro n (⟨hedge | hnot, hn⟩ | hdone)
  · refine .inl ⟨hn, hn.attached.watches.events (hfair.running n) (hfair.registered n hn.awaited) ?_ hedge⟩
    have hflags : D.flags (r.state n).kernel x = D.direction x := if_pos hn.ready
    rw [hn.attached.ready, hflags, BitVec.and_self]
    exact D.direction_ne x
  · exact .inr (.inr hnot)
  · exact .inr hdone

/-- What is awaited only while it is possible is carried out. -/
lemma leadsTo_results_of_ready (h : Reachable step IsStart (r.state 0))
    (hobject : (r.state 0).object f = some x)
    (hfair : Fair r f A) (hA : ∀ c, A c → D.ready c.kernel x = true) :
    r.LeadsTo (fun c => A c ∧ c.results f = l) fun c => c.results f ≠ l ∨ ¬ A c := by
  have hattached := attached_of_run (attached_of_reachable h hobject)
  have hstays : r.Unless (fun c => c.Possible f x A l) fun c => c.results f ≠ l ∨ ¬ A c := by
    intro n _
    by_cases hdone : (r.state (n + 1)).results f ≠ l ∨ ¬ A (r.state (n + 1))
    · exact .inr hdone
    · push Not at hdone
      exact .inl ⟨hdone.2, hattached (n + 1), hA _ hdone.2, hdone.1⟩
  rintro n ⟨hn, hres⟩
  exact leadsTo_results h hfair hstays n ⟨hn, hattached n, hA _ hn, hres⟩

end Runs

/-! ## Runs that come to rest -/

/-- Nothing happens. -/
def idle (c : Io V D) : EndlessRun (step (V := V) (D := D)) where
  state _ := c
  action _ := .epoll (.notify 0 0)
  next _ := by
    simp [step, elsewhere, epollStep, Epoll.step]

/-- An executed sequence of actions whose steps meet a condition, and then nothing. -/
lemma exists_resting_run {C : Io V D → IoAction V D → Prop} [∀ c a, Decidable (C c a)] {c₀ : Io V D}
    {as : List (IoAction V D)} (h : exec step (fun c a => decide (C c a)) c₀ as = some c) :
    ∃ r : EndlessRun (step (V := V) (D := D)), r.state 0 = c₀ ∧
      (∀ n, C (r.state n) (r.action n) ∨ r.state n = c ∧ r.action n = .epoll (.notify 0 0)) ∧
        ∀ m, r.state (as.length + m) = c := by
  obtain ⟨r, h₀, hstates, hlater⟩ := EndlessRun.exists_of_exec (r := c.idle) h
  refine ⟨r, h₀, fun n => ?_, fun m => (hlater m).1⟩
  rcases hstates n with ⟨a, rfl, ha⟩ | ⟨m, hm, hma⟩
  · exact .inl (of_decide_eq_true ha)
  · exact .inr ⟨hm, hma⟩

/-- A run in which at last no operation on the `Fd` is awaited is fair to it, if nothing has panicked and until
then the `Fd` has been registered and polled by tasks. -/
lemma fair_of_later {r : EndlessRun (step (V := V) (D := D))} {A : Io V D → Prop} {n₀ : ℕ}
    (hA : ∀ m, ¬ A (r.state (n₀ + m))) (hp : ∀ n, (r.state n).epoll.thread.panicked = none)
    (hstates : ∀ n, A (r.state n) → (r.state n).epoll.thread.inInterest f ∧ (r.state n).Tended f) :
    Fair r f A where
  running := hp
  registered n hn := (hstates n hn).1
  tended n hn := (hstates n hn).2
  served := EndlessRun.leadsTo_of_later fun m => .inr (hA m)
  polled _ _ := EndlessRun.leadsTo_of_later fun m => .inl (hA m)

/-- A run that comes to rest in a state in which no operation on the `Fd` is awaited is fair to it, if
nothing has panicked and until then the `Fd` has been registered and polled by tasks. -/
lemma fair_of_rest {r : EndlessRun (step (V := V) (D := D))} {A : Io V D → Prop} {n₀ : ℕ}
    (hlater : ∀ m, r.state (n₀ + m) = c) (hA : ¬ A c)
    (hstates : ∀ n, (r.state n).epoll.thread.panicked = none ∧
      (r.state n = c ∨ (r.state n).epoll.thread.inInterest f ∧ (r.state n).Tended f)) : Fair r f A :=
  fair_of_later (fun m => hlater m ▸ hA) (fun n => (hstates n).1) fun n hn =>
    (hstates n).2.resolve_left fun heq => hA (heq ▸ hn)

end Io

end Epox

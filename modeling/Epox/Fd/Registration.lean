import Epox.Executor.Data
import Epox.Foundation.Descriptors
import Epox.Foundation.Transition
import Mathlib.Logic.Function.Basic

/-!
# Registrations and descriptor numbers

`Fd::new` registers the address of an `EpollWaker` under the number that `as_raw_fd` of the inner object
returns, and `Fd::drop` deletes whatever is registered under the number that it returns *then*.  In
between the inner object may have been replaced through `inner_mut` or `with_mut`, numbers may have been
closed and reused, and the old file may have been kept open by another owner.

`Registry` are the `Fd`s of a thread together with the descriptors of the process and the interest set
of the executor; the functions below are those of `fd.rs` and `executor.rs` under their names there.
Whether the drop of an inner object closes its descriptor depends on its type and is an argument
(`owned`).
-/

namespace Epox

/-- An open file. -/
abbrev OpenFile := ℕ

/-- The `Fd`s of a thread and their registrations.  The data of a registration is the address of an
`EpollWaker`, or null for the wake pipe. -/
structure Registry where
  descriptors : Descriptors OpenFile
  interest : List (Registration OpenFile (Option FdId))
  /-- The length of `Executor::events`. -/
  events : ℕ
  /-- What `as_raw_fd` of the inner object returns. -/
  raw : FdId → RawFd
  live : FdId → Bool
  nFds : ℕ

namespace Registry

variable {s s' : Registry}

/-- An executor that has just been created, with the read end of its pipe. -/
def start (descriptors : Descriptors OpenFile) (pipeRd : RawFd) (pipe : OpenFile) : Registry where
  descriptors := descriptors
  interest := [⟨pipeRd, pipe, none⟩]
  events := 1
  raw _ := 0
  live _ := false
  nFds := 0

/-! ## The functions of the source -/

/-- Room is made for another event. -/
def pushEvent (s : Registry) : Registry := { s with events := s.events + 1 }

/-- Replace the interest set. -/
def setInterest (s : Registry) (interest : List (Registration OpenFile (Option FdId))) : Registry :=
  { s with interest := interest }

@[simp] lemma pushEvent_live : s.pushEvent.live = s.live := rfl

@[simp] lemma setInterest_live (interest : List (Registration OpenFile (Option FdId))) :
    (s.setInterest interest).live = s.live := rfl

/-- `Executor::epoll_add`; the flag tells whether it succeeds. -/
def epollAdd (s : Registry) (fd : RawFd) (ew : FdId) (ctl : Bool) : Registry × Bool :=
  match Registration.add s.interest s.descriptors fd (some ew) ctl with
  | some interest => (s.pushEvent.setInterest interest, true)
  | none => (s.pushEvent, false)

/-- `Executor::epoll_del`, whose error the only caller ignores. -/
def epollDel (s : Registry) (fd : RawFd) : Registry :=
  { s with
    events := s.events - 1
    interest := Registration.delete s.interest s.descriptors fd }

/-- A descriptor is closed. -/
def close (s : Registry) (fd : RawFd) : Registry :=
  { s with
    descriptors := s.descriptors.close fd
    interest := Registration.prune s.interest (s.descriptors.close fd) }

/-- The inner object of an `Fd` is dropped. -/
def dropInner (s : Registry) (fd : RawFd) (owned : Bool) : Registry :=
  if owned then s.close fd else s

/-- `Fd::drop`, and the drop of the inner object and of the `EpollWaker` after it. -/
def fdDrop (s : Registry) (f : FdId) (owned : Bool) : Registry :=
  let s' := (s.epollDel (s.raw f)).dropInner (s.raw f) owned
  { s' with live := Function.update s.live f false }

/-- The `Fd` that `Fd::new` builds before it calls `epoll_add`. -/
def build (s : Registry) (raw : RawFd) : Registry :=
  { s with
    raw := Function.update s.raw s.nFds raw
    live := Function.update s.live s.nFds true
    nFds := s.nFds + 1 }

/-- The `Fd` that is built is live. -/
@[simp] lemma build_live (raw : RawFd) :
    (s.build raw).live = Function.update s.live s.nFds true := rfl

/-- `Fd::new`; the flag tells whether it returns `Ok`.  `fcntl` fails for a number that refers to no
file; whether it succeeds otherwise is up to the kernel (`fcntl`), as for `epoll_ctl` (`ctl`).  When
`epoll_add` fails the half-built `Fd` is dropped. -/
def fdNew (s : Registry) (raw : RawFd) (owned fcntl ctl : Bool) : Registry × Bool :=
  if fcntl && (s.descriptors.file raw).isSome then
    let r := (s.build raw).epollAdd raw s.nFds ctl
    if r.2 then r else (r.1.fdDrop s.nFds owned, false)
  else
    (s.dropInner raw owned, false)

/-- `Fd::inner_mut`, with what `as_raw_fd` returns afterwards. -/
def innerMut (s : Registry) (f : FdId) (raw : RawFd) : Registry :=
  { s with raw := Function.update s.raw f raw }

/-! ## Steps -/

/-- What the code of the caller does, and the other owners of descriptors. -/
inductive Action
  | fdNew (raw : RawFd) (owned fcntl ctl : Bool)
  | innerMut (f : FdId) (raw : RawFd)
  | fdDrop (f : FdId) (owned : Bool)
  /-- A number that is not in use gets a new file, or one that is open already. -/
  | install (fd : RawFd) (file : OpenFile)
  | close (fd : RawFd)
  /-- A descriptor for an open file is passed to another process. -/
  | share (file : OpenFile)
  /-- Another process closes such a descriptor. -/
  | unshare (file : OpenFile)

/-- One step. -/
def step (s : Registry) : Action → Option Registry
  | .fdNew raw owned fcntl ctl => some (s.fdNew raw owned fcntl ctl).1
  | .innerMut f raw => if s.live f then some (s.innerMut f raw) else none
  | .fdDrop f owned => if s.live f then some (s.fdDrop f owned) else none
  | .install fd file =>
    if s.descriptors.file fd = none then
      some { s with descriptors := s.descriptors.install fd file }
    else
      none
  | .close fd => some (s.close fd)
  | .share file =>
    if s.descriptors.IsOpen file then
      some { s with descriptors := s.descriptors.share file }
    else
      none
  | .unshare file =>
    let d := s.descriptors.unshare file
    some { s with descriptors := d, interest := Registration.prune s.interest d }

/-- Only the pipe is registered yet. -/
def IsStart (s : Registry) : Prop :=
  ∃ descriptors pipeRd pipe, descriptors.file pipeRd = some pipe ∧ s = start descriptors pipeRd pipe

/-! ## Registrations of live descriptors -/

/-- `epoll_wait` may report an event with the address of the `EpollWaker` of `f`. -/
def reports (s : Registry) (f : FdId) : Prop := ∃ r ∈ s.interest, r.data = some f

/-- All addresses that `epoll_wait` may report are those of live `EpollWaker`s. -/
def Sound (s : Registry) : Prop := ∀ f, s.reports f → s.live f = true

/-- An `Fd` takes its registration with it when it is dropped: its inner object still names the
descriptor that was registered, or holds the last descriptor for the file, or there is no registration
any more. -/
def TakesRegistration (s : Registry) : Action → Prop
  | .fdDrop f owned => ∀ r ∈ s.interest, r.data = some f →
      r.Keyed s.descriptors (s.raw f) ∨
        owned = true ∧ ¬ (s.descriptors.close (s.raw f)).IsOpen r.file
  | _ => True

instance (s : Registry) : DecidablePred s.TakesRegistration
  | .fdDrop f owned => inferInstanceAs (Decidable (∀ r ∈ s.interest, r.data = some f →
      r.Keyed s.descriptors (s.raw f) ∨
        owned = true ∧ ¬ (s.descriptors.close (s.raw f)).IsOpen r.file))
  | .fdNew .. | .innerMut .. | .install .. | .close .. | .share .. | .unshare .. =>
    inferInstanceAs (Decidable True)

/-- The registrations that a drop leaves. -/
lemma mem_interest_fdDrop {f : FdId} {owned : Bool} {r : Registration OpenFile (Option FdId)} :
    r ∈ (s.fdDrop f owned).interest ↔ r ∈ s.interest ∧ ¬ r.Keyed s.descriptors (s.raw f) ∧
      (owned = true → (s.descriptors.close (s.raw f)).IsOpen r.file) := by
  cases owned <;> simp [fdDrop, dropInner, close, epollDel, and_assoc]

/-- Which of the `Fd`s are live after a drop. -/
lemma live_fdDrop (f : FdId) (owned : Bool) :
    (s.fdDrop f owned).live = Function.update s.live f false := rfl

/-- A drop keeps all registrations sound exactly when the `Fd` takes its own one with it. -/
lemma sound_fdDrop_iff (h : s.Sound) {f : FdId} {owned : Bool} :
    (s.fdDrop f owned).Sound ↔ s.TakesRegistration (.fdDrop f owned) := by
  constructor
  · intro h' r hr hf
    by_contra hkeep
    rw [not_or] at hkeep
    have hmem : r ∈ (s.fdDrop f owned).interest :=
      mem_interest_fdDrop.mpr ⟨hr, hkeep.1, fun ho => by_contra fun hc => hkeep.2 ⟨ho, hc⟩⟩
    have hlive := h' f ⟨r, hmem, hf⟩
    simp [live_fdDrop] at hlive
  · rintro h' g ⟨r, hr, hg⟩
    obtain ⟨hmem, hnot, hopen⟩ := mem_interest_fdDrop.mp hr
    have hne : g ≠ f := by
      rintro rfl
      rcases h' r hmem hg with hkeyed | ⟨howned, hclosed⟩
      · exact hnot hkeyed
      · exact hclosed (hopen howned)
    rw [live_fdDrop, Function.update_of_ne hne]
    exact h g ⟨r, hmem, hg⟩

/-- With fewer registrations of the same `Fd`s. -/
lemma Sound.mono (h : s.Sound) (hlive : s'.live = s.live)
    (hinterest : ∀ r ∈ s'.interest, r ∈ s.interest) : s'.Sound := by
  rintro f ⟨r, hr, hf⟩
  rw [hlive]
  exact h f ⟨r, hinterest r hr, hf⟩

/-- The drop of an inner object only takes registrations away. -/
lemma dropInner_interest_subset (fd : RawFd) (owned : Bool) :
    ∀ r ∈ (s.dropInner fd owned).interest, r ∈ s.interest := by
  cases owned <;> simp +contextual [dropInner, close]

/-- The drop of an inner object does not touch an `Fd`. -/
@[simp] lemma dropInner_live (fd : RawFd) (owned : Bool) : (s.dropInner fd owned).live = s.live := by
  cases owned <;> rfl

/-- The numbers of the live `Fd`s have been given out. -/
def Known (s : Registry) : Prop := ∀ f, s.live f = true → f < s.nFds

/-- `epoll_add` that succeeds. -/
lemma epollAdd_of_some {fd : RawFd} {ew : FdId} {ctl : Bool}
    {interest : List (Registration OpenFile (Option FdId))}
    (h : Registration.add s.interest s.descriptors fd (some ew) ctl = some interest) :
    s.epollAdd fd ew ctl = (s.pushEvent.setInterest interest, true) := by
  simp [epollAdd, h]

/-- `epoll_add` that fails has made room for another event all the same. -/
lemma epollAdd_of_none {fd : RawFd} {ew : FdId} {ctl : Bool}
    (h : Registration.add s.interest s.descriptors fd (some ew) ctl = none) :
    s.epollAdd fd ew ctl = (s.pushEvent, false) := by
  simp [epollAdd, h]

/-- `Fd::new` either adds a registration of a new `Fd`, or fails and drops what it has built. -/
lemma fdNew_cases (s : Registry) (raw : RawFd) (owned fcntl ctl : Bool) :
    (∃ interest, Registration.add s.interest s.descriptors raw (some s.nFds) ctl = some interest ∧
      s.fdNew raw owned fcntl ctl = ((s.build raw).pushEvent.setInterest interest, true)) ∨
    (fcntl = true ∧ (s.descriptors.file raw).isSome = true ∧
      s.fdNew raw owned fcntl ctl = ((s.build raw).pushEvent.fdDrop s.nFds owned, false)) ∨
    ((fcntl = false ∨ s.descriptors.file raw = none) ∧
      s.fdNew raw owned fcntl ctl = (s.dropInner raw owned, false)) := by
  by_cases hfcntl : (fcntl && (s.descriptors.file raw).isSome) = true
  · obtain hadd | ⟨interest, hadd⟩ := Option.eq_none_or_eq_some
      (Registration.add s.interest s.descriptors raw (some s.nFds) ctl)
    · refine .inr (.inl ⟨by simp_all, by simp_all, ?_⟩)
      simp only [fdNew, if_pos hfcntl]
      rw [epollAdd_of_none (s := s.build raw) hadd]
      rfl
    · refine .inl ⟨interest, hadd, ?_⟩
      simp only [fdNew, if_pos hfcntl]
      rw [epollAdd_of_some (s := s.build raw) hadd]
      rfl
  · refine .inr (.inr ⟨?_, by rw [fdNew, if_neg hfcntl]⟩)
    by_contra hboth
    rw [not_or] at hboth
    exact hfcntl (by simp [hboth.1, Option.isSome_iff_ne_none.mpr hboth.2])

/-- `Fd::new` keeps all registrations sound. -/
lemma sound_fdNew (h : s.Sound) (hknown : s.Known) (raw : RawFd) (owned fcntl ctl : Bool) :
    (s.fdNew raw owned fcntl ctl).1.Sound := by
  have hnew : ∀ f, s.reports f → f ≠ s.nFds := fun f hf => (hknown f (h f hf)).ne
  rcases fdNew_cases s raw owned fcntl ctl with ⟨interest, hadd, hs⟩ | ⟨-, -, hs⟩ | ⟨-, hs⟩
  · rw [hs]
    rintro f ⟨r, hr, hf⟩
    by_cases hfn : f = s.nFds
    · simp [hfn]
    · rcases Registration.mem_of_add hadd hr with hr | hr
      · simpa [hfn] using h f ⟨r, hr, hf⟩
      · exact absurd (Option.some.inj (hf.symm.trans hr)) hfn
  · rw [hs]
    rintro f ⟨r, hr, hf⟩
    have hrep : s.reports f := ⟨r, (mem_interest_fdDrop.mp hr).1, hf⟩
    simpa [live_fdDrop, hnew f hrep] using h f hrep
  · rw [hs]
    exact h.mono (by simp) (dropInner_interest_subset raw owned)

/-- A step from sound registrations leads to sound ones exactly when a dropped `Fd` takes its
registration with it. -/
lemma sound_step_iff (h : s.Sound) (hknown : s.Known) {a : Action} (hs : s.step a = some s') :
    s'.Sound ↔ s.TakesRegistration a := by
  cases a with
  | fdNew raw owned fcntl ctl =>
    obtain rfl := Option.some.inj hs
    exact iff_of_true (sound_fdNew h hknown raw owned fcntl ctl) trivial
  | innerMut f raw =>
    simp only [step] at hs
    split_ifs at hs
    obtain rfl := Option.some.inj hs
    exact iff_of_true (h.mono rfl fun r hr => hr) trivial
  | fdDrop f owned =>
    simp only [step] at hs
    split_ifs at hs
    obtain rfl := Option.some.inj hs
    exact sound_fdDrop_iff h
  | install fd file | share file =>
    simp only [step] at hs
    split_ifs at hs
    obtain rfl := Option.some.inj hs
    exact iff_of_true (h.mono rfl fun r hr => hr) trivial
  | close fd | unshare file =>
    obtain rfl := Option.some.inj hs
    exact iff_of_true (h.mono rfl fun r hr => (Registration.mem_prune.mp hr).1) trivial

/-- The drop of an `Fd` gives no number out. -/
lemma known_fdDrop (h : s.Known) (f : FdId) (owned : Bool) : (s.fdDrop f owned).Known := by
  have hn : (s.fdDrop f owned).nFds = s.nFds := by cases owned <;> rfl
  intro g hg
  rw [live_fdDrop] at hg
  by_cases hgf : g = f
  · simp [hgf] at hg
  · rw [Function.update_of_ne hgf] at hg
    exact hn ▸ h g hg

/-- A new `Fd` gets the next number. -/
lemma known_build (h : s.Known) (raw : RawFd) : (s.build raw).Known := by
  intro f hf
  by_cases hfn : f = s.nFds
  · exact hfn ▸ Nat.lt_succ_self _
  · rw [build_live, Function.update_of_ne hfn] at hf
    exact (h f hf).trans (Nat.lt_succ_self _)

/-- The numbers of live `Fd`s have been given out in every step. -/
lemma known_step (h : s.Known) {a : Action} (hs : s.step a = some s') : s'.Known := by
  cases a with
  | fdNew raw owned fcntl ctl =>
    obtain rfl := Option.some.inj hs
    rcases fdNew_cases s raw owned fcntl ctl with ⟨interest, hadd, hs⟩ | ⟨-, -, hs⟩ | ⟨-, hs⟩
    · rw [hs]
      exact known_build h raw
    · rw [hs]
      exact known_fdDrop (s := (s.build raw).pushEvent) (known_build h raw) s.nFds owned
    · rw [hs]
      cases owned <;> exact h
  | fdDrop f owned =>
    simp only [step] at hs
    split_ifs at hs
    obtain rfl := Option.some.inj hs
    exact known_fdDrop h f owned
  | innerMut f raw | install fd file | share file =>
    simp only [step] at hs
    split_ifs at hs
    obtain rfl := Option.some.inj hs
    exact h
  | close fd | unshare file =>
    obtain rfl := Option.some.inj hs
    exact h

/-- The numbers of live `Fd`s have been given out. -/
lemma known_of_reachable (h : Reachable step IsStart s) : s.Known := by
  refine h.invariant ?_ fun s a s' _ ih _ hs => known_step ih hs
  rintro s ⟨d, n, p, -, rfl⟩ f hf
  simp [start] at hf

/-- As long as every `Fd` that is dropped takes its registration with it, whatever `epoll_wait` reports
carries the address of a live `EpollWaker`; and the first `Fd` that does not leaves an address behind
that is dangling. -/
theorem reports_live (h : ReachableUnder step IsStart TakesRegistration s) :
    (∀ f, s.reports f → s.live f = true) ∧
      ∀ a s', s.step a = some s' →
        ((∀ f, s'.reports f → s'.live f = true) ↔ s.TakesRegistration a) := by
  have hsound : s.Sound := by
    induction h with
    | init h =>
      obtain ⟨d, n, p, -, rfl⟩ := h
      rintro f ⟨r, hr, hf⟩
      simp [List.mem_singleton.mp hr] at hf
    | next h hC hs ih => exact (sound_step_iff ih (known_of_reachable h.reachable) hs).mpr hC
  exact ⟨hsound, fun a s' hs => sound_step_iff hsound (known_of_reachable h.reachable) hs⟩

/-- The start of the runs below: descriptor 3 is the pipe. -/
lemma isStart_start : IsStart (start ⟨[(3, 0)], []⟩ 3 0) := ⟨_, _, _, rfl, rfl⟩

/-- The inner object of an `Fd` is replaced by one on another file; its own registration goes with the
old descriptor, and `EPOLL_CTL_DEL` finds nothing to delete. -/
theorem reports_live_after_replacement : ∃ s, ReachableUnder step IsStart TakesRegistration s ∧
    (∀ f, s.reports f → s.live f = true) ∧ s.live 0 = false ∧ s.nFds = 1 := by
  obtain ⟨s, hs, h⟩ := ReachableUnder.exists_run step TakesRegistration isStart_start
    [.install 5 1, .install 6 2, .fdNew 5 true true true, .innerMut 0 6, .close 5, .fdDrop 0 true]
    (P := fun s => !s.live 0 && s.nFds == 1) (by decide)
  simp only [Bool.and_eq_true, Bool.not_eq_true', beq_iff_eq] at h
  exact ⟨s, hs, (reports_live hs).1, h.1, h.2⟩

/-- The inner objects of two `Fd`s are swapped and one of them is dropped: it deletes the registration
of the other one, and its own one stays. -/
theorem reports_dropped : ∃ s : Registry, Reachable step IsStart s ∧ ∃ f, s.reports f ∧
    s.live f = false := by
  obtain ⟨s, hs, h⟩ := ReachableUnder.exists_free_run step isStart_start
    [.install 5 1, .install 6 2, .fdNew 5 true true true, .fdNew 6 true true true, .innerMut 0 6,
      .innerMut 1 5, .fdDrop 0 true]
    (P := fun s => !s.live 0 && s.interest.any fun r => r.data == some 0) (by decide)
  simp only [Bool.and_eq_true, Bool.not_eq_true', List.any_eq_true, beq_iff_eq] at h
  exact ⟨s, hs, 0, h.2, h.1⟩

/-! ## Failures of `Fd::new` -/

/-- The number is not registered with the executor, so that the drop of a half-built `Fd` has nothing to
delete; and the inner object dropped with it does not hold the last descriptor of a registered file. -/
def LeavesAlone (s : Registry) (raw : RawFd) (owned fcntl : Bool) : Prop :=
  (fcntl = true → ∀ r ∈ s.interest, ¬ r.Keyed s.descriptors raw) ∧
    (owned = true → ∀ r ∈ s.interest, (s.descriptors.close raw).IsOpen r.file)

/-- What the drop of an inner object leaves. -/
lemma dropInner_eq_self_iff (raw : RawFd) (owned : Bool) :
    (s.dropInner raw owned).interest = s.interest ↔
      (owned = true → ∀ r ∈ s.interest, (s.descriptors.close raw).IsOpen r.file) := by
  cases owned
  · simp [dropInner]
  · simp [dropInner, close, Registration.prune_eq_self_iff]

/-- A call of `Fd::new` that fails leaves the length of `events` as it was, and the interest set exactly
when its number was not registered before, or `fcntl` was what failed, and the inner object that is
dropped with it does not hold the last descriptor of a registered file. -/
theorem fdNew_failed_iff (s : Registry) (raw : RawFd) (owned fcntl ctl : Bool)
    (h : (s.fdNew raw owned fcntl ctl).2 = false) :
    (s.fdNew raw owned fcntl ctl).1.events = s.events ∧
      ((s.fdNew raw owned fcntl ctl).1.interest = s.interest ↔ s.LeavesAlone raw owned fcntl) := by
  rcases fdNew_cases s raw owned fcntl ctl with ⟨interest, -, hs⟩ | ⟨hfcntl, -, hs⟩ | ⟨hfcntl, hs⟩
  · simp [hs] at h
  · rw [hs]
    subst hfcntl
    cases owned
    · simp [fdDrop, dropInner, epollDel, pushEvent, build, LeavesAlone,
        Registration.delete_eq_self_iff]
    · simp [fdDrop, dropInner, close, epollDel, pushEvent, build, LeavesAlone,
        Registration.prune_delete_eq_self_iff]
  · have hnot : fcntl = true → ∀ r ∈ s.interest, ¬ r.Keyed s.descriptors raw := by
      rintro hf r - ⟨-, hfile⟩
      rcases hfcntl with hfcntl | hfcntl
      · exact Bool.false_ne_true (hfcntl.symm.trans hf)
      · simp [hfcntl] at hfile
    rw [hs]
    refine ⟨by cases owned <;> rfl, ?_⟩
    rw [dropInner_eq_self_iff]
    exact ⟨fun h => ⟨hnot, h⟩, fun h => h.2⟩

/-- `epoll_ctl` refuses a regular file, and nothing has changed. -/
theorem fdNew_failed_of_file : ((start ⟨[(5, 1), (3, 0)], []⟩ 3 0).fdNew 5 true true false).2 = false ∧
    ((start ⟨[(5, 1), (3, 0)], []⟩ 3 0).fdNew 5 true true false).1.interest = [⟨3, 0, none⟩] :=
  ⟨rfl, (fdNew_failed_iff _ 5 true true false rfl).2.mpr ⟨by decide, by decide⟩⟩

/-- A second `Fd` on a number that is registered already fails, and takes the registration of the first
one away. -/
theorem fdNew_failed_deregisters : ∃ s : Registry, Reachable step IsStart s ∧ s.live 0 = true ∧
    s.reports 0 ∧ (s.fdNew 5 false true true).2 = false ∧
      ¬ (s.fdNew 5 false true true).1.reports 0 := by
  obtain ⟨s, hs, h⟩ := ReachableUnder.exists_free_run step isStart_start
    [.install 5 1, .fdNew 5 false true true]
    (P := fun s => s.live 0 && !(s.fdNew 5 false true true).2 &&
      decide (s.interest.map Registration.data = [none, some 0] ∧
        (s.fdNew 5 false true true).1.interest.map Registration.data = [none])) (by decide)
  simp only [Bool.and_eq_true, Bool.not_eq_true', decide_eq_true_eq] at h
  obtain ⟨⟨hlive, hfail⟩, hbefore, hafter⟩ := h
  refine ⟨s, hs, hlive, ?_, hfail, ?_⟩
  · exact List.mem_map.mp (hbefore ▸ by simp)
  · rintro ⟨r, hr, hdata⟩
    have hmem := hafter ▸ List.mem_map_of_mem (f := Registration.data) hr
    simp [hdata] at hmem

end Registry

end Epox

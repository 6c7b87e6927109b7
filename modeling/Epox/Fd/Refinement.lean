import Epox.Executor.Thread
import Epox.Fd.Registration

/-!
# The registrations of a thread

A thread knows the descriptors of its `Fd`s by their numbers only: nobody replaces the inner object of an
`Fd`, and nobody closes a number that is registered.  Under these assumptions, which `Opens` states, its
`Fd::new` and `Fd::drop` are those of a `Registry`.
-/

namespace Epox

namespace Thread

variable {V : Type} {s : Thread V} {d : Descriptors OpenFile} {pipeRd : RawFd}

/-! ## The abstraction -/

/-- The registration of a number. -/
def registration (d : Descriptors OpenFile) (n : RawFd) (data : Option FdId) :
    Registration OpenFile (Option FdId) :=
  ⟨n, (d.file n).getD 0, data⟩

/-- The registrations of an executor, that of its pipe first. -/
def registrations (d : Descriptors OpenFile) (pipeRd : RawFd) (l : List (RawFd × FdId)) :
    List (Registration OpenFile (Option FdId)) :=
  registration d pipeRd none :: l.map fun i => registration d i.1 (some i.2)

/-- What a registry knows of a thread. -/
def registry (s : Thread V) (d : Descriptors OpenFile) (pipeRd : RawFd) : Registry where
  descriptors := d
  interest := registrations d pipeRd s.executor.interest
  events := s.executor.events
  raw f := (s.fds f).raw
  live f := (s.fds f).live
  nFds := s.nFds

/-- The numbers that are registered are open, and none but the first is that of the pipe. -/
structure Opens (s : Thread V) (d : Descriptors OpenFile) (pipeRd : RawFd) : Prop where
  pipe : (d.file pipeRd).isSome
  registered : ∀ i ∈ s.executor.interest, (d.file i.1).isSome ∧ i.1 ≠ pipeRd

/-- The registration of an open number is found under it. -/
lemma registration_keyed_iff {n m : RawFd} {data : Option FdId} (h : (d.file m).isSome) :
    (registration d m data).Keyed d n ↔ m = n := by
  obtain ⟨file, hfile⟩ := Option.isSome_iff_exists.mp h
  constructor
  · exact And.left
  · rintro rfl
    exact ⟨rfl, by simp [registration, hfile]⟩

/-- Closing another number does not change a registration. -/
lemma registration_close {n m : RawFd} {data : Option FdId} (h : m ≠ n) :
    registration (d.close n) m data = registration d m data := by
  rw [registration, Descriptors.file_close, if_neg h, registration]

/-! ## The functions of the source -/

/-- The current executor changes. -/
lemma registry_setExec (s : Thread V) (e : Executor) :
    (s.setExec s.cur e).registry d pipeRd =
      { s.registry d pipeRd with interest := registrations d pipeRd e.interest, events := e.events } := by
  simp [registry, setExec, executor]

/-- A number is closed that is not registered. -/
lemma registry_close (h : s.Opens d pipeRd) {n : RawFd} (hn : n ≠ pipeRd)
    (hfree : ∀ i ∈ s.executor.interest, i.1 ≠ n) :
    (s.registry d pipeRd).close n = s.registry (d.close n) pipeRd := by
  have hsame : registrations (d.close n) pipeRd s.executor.interest =
      registrations d pipeRd s.executor.interest := by
    rw [registrations, registration_close hn.symm, registrations]
    exact congrArg _ (List.map_congr_left fun i hi => registration_close (hfree i hi))
  have hopen : ∀ m, (d.file m).isSome → m ≠ n → (d.close n).IsOpen ((d.file m).getD 0) := by
    intro m hm hmn
    obtain ⟨file, hfile⟩ := Option.isSome_iff_exists.mp hm
    rw [hfile]
    exact Descriptors.isOpen_of_file (by rw [Descriptors.file_close, if_neg hmn, hfile]; rfl)
  have hprune : Registration.prune (registrations d pipeRd s.executor.interest) (d.close n) =
      registrations d pipeRd s.executor.interest := by
    rw [Registration.prune_eq_self_iff]
    intro r hr
    rcases List.mem_cons.mp hr with rfl | hr
    · exact hopen pipeRd h.pipe hn.symm
    · obtain ⟨i, hi, rfl⟩ := List.mem_map.mp hr
      exact hopen i.1 (h.registered i hi).1 (hfree i hi)
  simp only [Registry.close, registry, hsame, hprune]

/-- `Executor::epoll_del`. -/
lemma registry_epollDel (h : s.Opens d pipeRd) {n : RawFd} (hn : n ≠ pipeRd) :
    (s.registry d pipeRd).epollDel n = (s.epollDel n).registry d pipeRd := by
  have hdelete : Registration.delete (registrations d pipeRd s.executor.interest) d n =
      registrations d pipeRd (s.executor.interest.filter fun i => i.1 ≠ n) := by
    have hpipe : ¬ (registration d pipeRd none).Keyed d n := by
      rw [registration_keyed_iff h.pipe]
      exact hn.symm
    simp only [Registration.delete, registrations, List.filter_cons, hpipe, not_false_eq_true,
      decide_true, if_true, List.filter_map]
    refine congrArg _ (congrArg _ (List.filter_congr fun i hi => ?_))
    simp [registration_keyed_iff (h.registered i hi).1]
  rw [epollDel, registry_setExec]
  simp only [Registry.epollDel, registry, hdelete]

/-- Deleting a number leaves the others open. -/
lemma Opens.epollDel (h : s.Opens d pipeRd) (n : RawFd) : (s.epollDel n).Opens d pipeRd where
  pipe := h.pipe
  registered i hi := h.registered i (by
    simp only [Thread.epollDel, setExec, executor, Function.update_self, List.mem_filter] at hi
    exact hi.1)

/-- `Fd::drop` is that of a registry. -/
theorem registry_fdDrop (h : s.Opens d pipeRd) {f : FdId} (hraw : (s.fds f).raw ≠ pipeRd) (owned : Bool) :
    (s.registry d pipeRd).fdDrop f owned =
      (s.fdDrop f).registry (if owned then d.close (s.fds f).raw else d) pipeRd := by
  have hdel := registry_epollDel h hraw
  have hfree : ∀ i ∈ (s.epollDel (s.fds f).raw).executor.interest, i.1 ≠ (s.fds f).raw := by
    intro i hi
    simp only [epollDel, setExec, executor, Function.update_self, List.mem_filter, decide_eq_true_eq] at hi
    exact hi.2
  have hclose := registry_close (h.epollDel (s.fds f).raw) hraw hfree
  have hdrop : (s.registry d pipeRd).fdDrop f owned =
      { (((s.registry d pipeRd).epollDel (s.fds f).raw).dropInner (s.fds f).raw owned) with
        live := Function.update (fun g => (s.fds g).live) f false } := by
    cases owned <;> rfl
  have hregistry : ∀ d', (s.fdDrop f).registry d' pipeRd =
      { ((s.epollDel (s.fds f).raw).registry d' pipeRd) with
        live := Function.update (fun g => (s.fds g).live) f false } := by
    intro d'
    simp only [registry, fdDrop, emit, setFd, Registry.mk.injEq, true_and]
    refine ⟨rfl, rfl, funext fun g => ?_, funext fun g => ?_, trivial⟩
    · by_cases hg : g = f <;> simp [hg, epollDel, setExec]
    · by_cases hg : g = f <;> simp [hg, epollDel, setExec]
  rw [hdrop, hregistry, hdel]
  cases owned with
  | false => rfl
  | true => simp only [Registry.dropInner, if_true, hclose]

/-- `Executor::epoll_add`. -/
lemma registry_epollAdd (h : s.Opens d pipeRd) {raw : RawFd} (hraw : raw ≠ pipeRd)
    (hopen : (d.file raw).isSome) (f : FdId) (ctl : Bool) :
    (s.registry d pipeRd).epollAdd raw f ctl =
      ((s.epollAdd raw f ctl).1.registry d pipeRd, (s.epollAdd raw f ctl).2) := by
  obtain ⟨file, hfile⟩ := Option.isSome_iff_exists.mp hopen
  have hany : ((registrations d pipeRd s.executor.interest).any fun r => r.Keyed d raw) =
      (s.executor.interest.map Prod.fst).contains raw := by
    rw [Bool.eq_iff_iff, List.any_eq_true, List.contains_iff_mem, List.mem_map]
    constructor
    · rintro ⟨r, hr, hkeyed⟩
      rcases List.mem_cons.mp hr with rfl | hr
      · exact absurd ((registration_keyed_iff h.pipe).mp (of_decide_eq_true hkeyed)).symm hraw
      · obtain ⟨i, hi, rfl⟩ := List.mem_map.mp hr
        exact ⟨i, hi, (registration_keyed_iff (h.registered i hi).1).mp (of_decide_eq_true hkeyed)⟩
    · rintro ⟨i, hi, rfl⟩
      exact ⟨_, List.mem_cons_of_mem _ (List.mem_map.mpr ⟨i, hi, rfl⟩),
        decide_eq_true ((registration_keyed_iff (h.registered i hi).1).mpr rfl)⟩
  have hadd : Registration.add (s.registry d pipeRd).interest d raw (some f) ctl =
      if ctl && !(s.executor.interest.map Prod.fst).contains raw then
        some (registrations d pipeRd (s.executor.interest ++ [(raw, f)])) else none := by
    simp only [Registration.add, hfile, Option.bind_some, registry, hany]
    simp [registrations, registration, hfile]
  have hthread : s.epollAdd raw f ctl =
      if ctl && !(s.executor.interest.map Prod.fst).contains raw then
        (s.setExec s.cur { s.executor with
          events := s.executor.events + 1
          interest := s.executor.interest ++ [(raw, f)] }, true)
      else
        (s.setExec s.cur { s.executor with events := s.executor.events + 1 }, false) := rfl
  have hdescriptors : (s.registry d pipeRd).descriptors = d := rfl
  rw [Registry.epollAdd, hdescriptors, hadd, hthread]
  cases ctl && !(s.executor.interest.map Prod.fst).contains raw with
  | true =>
    simp only [if_true, registry_setExec]
    rfl
  | false =>
    simp only [Bool.false_eq_true, if_false, registry_setExec]
    rfl

/-- `epoll_add` that fails has made room for another event all the same. -/
lemma epollAdd_of_failed {raw : RawFd} {f : FdId} {ctl : Bool} (h : (s.epollAdd raw f ctl).2 = false) :
    (s.epollAdd raw f ctl).1 = s.setExec s.cur { s.executor with events := s.executor.events + 1 } := by
  simp only [epollAdd] at h ⊢
  split_ifs at h ⊢
  rfl

/-- The `Fd` that `Fd::new` builds before it calls `epoll_add`. -/
def build (s : Thread V) (raw : RawFd) (events : EpollFlags) : Thread V :=
  { s with
    fds := Function.update s.fds s.nFds
      { raw := raw
        ew := EpollWaker.new (events &&& (EpollFlags.epollIn ||| EpollFlags.epollOut))
        borrowed := false
        exec := s.cur
        live := true }
    nFds := s.nFds + 1 }

/-- `Fd::new` after `fcntl`. -/
lemma fdNew_eq (s : Thread V) (raw : RawFd) (events : EpollFlags) (ctl : Bool) :
    s.fdNew raw events true ctl =
      if ((s.build raw events).epollAdd raw s.nFds ctl).2 then
        ((s.build raw events).epollAdd raw s.nFds ctl).1
      else
        ((s.build raw events).epollAdd raw s.nFds ctl).1.fdDrop s.nFds := rfl

/-- The `Fd` of a thread and that of a registry. -/
lemma registry_build (s : Thread V) (raw : RawFd) (events : EpollFlags) :
    (s.registry d pipeRd).build raw = (s.build raw events).registry d pipeRd := by
  simp only [Registry.build, registry, build, Registry.mk.injEq, true_and]
  refine ⟨rfl, rfl, funext fun g => ?_, funext fun g => ?_, trivial⟩
  · by_cases hg : g = s.nFds <;> simp [hg]
  · by_cases hg : g = s.nFds <;> simp [hg]

/-- `Fd::new` is that of a registry.  A descriptor that is owned by the inner object is registered by
nobody else. -/
theorem registry_fdNew (h : s.Opens d pipeRd) {raw : RawFd} (hraw : raw ≠ pipeRd)
    (hopen : (d.file raw).isSome) {owned : Bool}
    (hfree : owned = true → ∀ i ∈ s.executor.interest, i.1 ≠ raw) (events : EpollFlags) (fcntl ctl : Bool) :
    ((s.registry d pipeRd).fdNew raw owned fcntl ctl).1 = (s.fdNew raw events fcntl ctl).registry
      (if owned ∧ ((s.registry d pipeRd).fdNew raw owned fcntl ctl).2 = false then d.close raw else d)
      pipeRd := by
  cases fcntl with
  | false =>
    cases owned with
    | false => rfl
    | true => exact registry_close h hraw (hfree rfl)
  | true =>
    have hadd := registry_epollAdd (s := s.build raw events) ⟨h.pipe, h.registered⟩ hraw hopen s.nFds ctl
    have hnew : (s.registry d pipeRd).fdNew raw owned true ctl =
        if ((s.build raw events).epollAdd raw s.nFds ctl).2 then
          (((s.build raw events).epollAdd raw s.nFds ctl).1.registry d pipeRd, true)
        else
          ((((s.build raw events).epollAdd raw s.nFds ctl).1.registry d pipeRd).fdDrop s.nFds owned,
            false) := by
      have hfile : ((s.registry d pipeRd).descriptors.file raw).isSome = true := hopen
      have hn : (s.registry d pipeRd).nFds = s.nFds := rfl
      simp only [Registry.fdNew, Bool.true_and, hfile, if_true, hn, registry_build s raw events, hadd]
      cases ((s.build raw events).epollAdd raw s.nFds ctl).2 <;> rfl
    rw [hnew, fdNew_eq]
    cases hok : ((s.build raw events).epollAdd raw s.nFds ctl).2 with
    | true => simp
    | false =>
      -- The interest set is that of the thread, and the `Fd` that is dropped is the one that was built.
      have hfailed := epollAdd_of_failed hok
      have hbuilt : (((s.build raw events).epollAdd raw s.nFds ctl).1.fds s.nFds).raw = raw := by
        rw [hfailed]
        simp [setExec, build]
      have hopens : ((s.build raw events).epollAdd raw s.nFds ctl).1.Opens d pipeRd := by
        refine ⟨h.pipe, fun i hi => h.registered i ?_⟩
        rw [hfailed] at hi
        simpa [setExec, executor, build] using hi
      have hdrop := registry_fdDrop hopens (hbuilt.symm ▸ hraw) owned
      rw [hbuilt] at hdrop
      simp only [Bool.false_eq_true, if_false, hdrop, and_true]

end Thread

end Epox

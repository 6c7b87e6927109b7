import Epox.Executor.WellFormed
import Mathlib.Data.Finset.Card
import Mathlib.Order.Interval.Finset.Nat

/-!
# The buffer for events

`epoll_add` pushes an entry to the buffer of the current executor and `epoll_del` pops one, but
`Fd::drop` calls `epoll_del` on whatever executor the thread has by then.  So the buffer of an executor
has one entry for the pipe and one for each of its `Fd`s exactly as long as no `Fd` of another executor
has been dropped in its place.
-/

namespace Epox

namespace Thread

variable {V : Type} {s s' : Thread V}

/-! ## The `Fd`s of an executor -/

/-- The live `Fd`s registered with an executor. -/
def registered (s : Thread V) (x : ExecId) : Finset FdId :=
  (Finset.range s.nFds).filter fun f => (s.fds f).live = true ∧ (s.fds f).exec = x

/-- Every `Fd` that was dropped while the current executor was in place was registered with it. -/
def DropsOwn (s : Thread V) : Prop :=
  ∀ f, .fdDropped f s.cur ∈ s.log → (s.fds f).exec = s.cur

/-- The `Fd`s, the buffer for events and the record of the dropped `Fd`s are as before. -/
structure SameFds (s s' : Thread V) : Prop where
  cur : s'.cur = s.cur
  nFds : s'.nFds = s.nFds
  events : s'.executor.events = s.executor.events
  live : ∀ f, (s'.fds f).live = (s.fds f).live
  exec : ∀ f, (s'.fds f).exec = (s.fds f).exec
  dropped : ∀ f x, .fdDropped f x ∈ s'.log ↔ .fdDropped f x ∈ s.log

/-- Changing an executor but not the length of its buffer. -/
lemma sameFds_setExec (s : Thread V) {x : ExecId} {e : Executor}
    (he : e.events = (s.execs x).events) : SameFds s (s.setExec x e) where
  cur := rfl
  nFds := rfl
  events := by
    by_cases hx : s.cur = x
    · simp [executor, setExec, hx, he]
    · simp [executor, setExec, hx]
  live _ := rfl
  exec _ := rfl
  dropped _ _ := Iff.rfl

/-- Changing the waker of an `Fd` and whether it is borrowed. -/
lemma sameFds_setFd (s : Thread V) {f : FdId} {fd : Fd} (hlive : fd.live = (s.fds f).live)
    (hexec : fd.exec = (s.fds f).exec) : SameFds s (s.setFd f fd) where
  cur := rfl
  nFds := rfl
  events := rfl
  live g := by
    by_cases hg : g = f
    · simp [setFd, hg, hlive]
    · simp [setFd, hg]
  exec g := by
    by_cases hg : g = f
    · simp [setFd, hg, hexec]
    · simp [setFd, hg]
  dropped _ _ := Iff.rfl

/-- The effects of wakes leave the `Fd`s registered. -/
lemma Effects.sameFds (h : Effects s s') : SameFds s s' := by
  have hs := h.untouched
  obtain ⟨l, hl, hwake⟩ := hs.log
  refine ⟨hs.cur, hs.nFds, ?_, hs.live, hs.fdExec, fun f x => ?_⟩
  · rw [executor, hs.cur]
    exact hs.events s.cur
  · rw [hl, List.mem_append]
    exact or_iff_right fun hm => by simpa [Event.isWake] using hwake _ hm

/-- Only creating and dropping `Fd`s and replacing the executor do not leave the `Fd`s registered. -/
lemma Move.sameFds {a : Action V} (hm : Move s a s') :
    SameFds s s' ∨ (∃ raw events fcntl ctl, s' = s.fdNew raw events fcntl ctl) ∨
      (∃ f, (s.fds f).live = true ∧ s' = s.fdDrop f) ∨
        s'.cur = s.cur + 1 ∧ s'.executor.events = 1 ∧ s'.nFds = s.nFds ∧ s'.fds = s.fds ∧
          s'.log = s.log := by
  cases hm with
  | stay hu heff => exact .inl heff.sameFds
  | jump hstack hj =>
    have h := hj.effects.sameFds
    exact .inl ⟨h.cur, h.nFds, h.events, h.live, h.exec, h.dropped⟩
  | crash heff hp =>
    have h := heff.sameFds
    exact .inl ⟨h.cur, h.nFds, h.events, h.live, h.exec, h.dropped⟩
  | repoll hstack hpc heff =>
    have h := heff.sameFds
    exact .inl ⟨h.cur, h.nFds, h.events, h.live, h.exec, fun f x => by
      simpa [emit, Thread.setStack] using h.dropped f x⟩
  | @close k x rest hstack =>
    have h := sameFds_setExec s (x := x) (e := { s.execs x with isOpen := false }) rfl
    exact .inl ⟨h.cur, h.nFds, h.events, h.live, h.exec, fun f x => by simp [emit, setExec,
      Thread.setStack]⟩
  | spawn hu =>
    rw [Thread.spawn, enqueue_of_not_completed (by simp)]
    exact .inl ⟨rfl, rfl, rfl, fun _ => rfl, fun _ => rfl, fun f x => by simp⟩
  | shutdown hu => exact .inl (sameFds_setExec s rfl)
  | @enterPollWith f cx k hu =>
    have h : SameFds s (s.setFd f { s.fds f with borrowed := true }) := sameFds_setFd s rfl rfl
    exact .inl ⟨h.cur, h.nFds, h.events, h.live, h.exec, h.dropped⟩
  | @closure r f cx ew rest hstack =>
    have h : SameFds s (s.setFd f { s.fds f with ew := ew, borrowed := false }) :=
      sameFds_setFd s rfl rfl
    exact .inl ⟨h.cur, h.nFds, h.events, h.live, h.exec, h.dropped⟩
  | @foreignWrite t =>
    have h := (foreignWrite_effects s t).sameFds
    exact .inl ⟨h.cur, h.nFds, h.events, h.live, h.exec, h.dropped⟩
  | foreignBlockOn => exact .inl (foreignBlockOn_effects s _).sameFds
  | fdNew hu => exact .inr (.inl ⟨_, _, _, _, rfl⟩)
  | fdDrop hu hlive => exact .inr (.inr (.inl ⟨_, hlive, rfl⟩))
  | replace hstack hfd =>
    refine .inr (.inr (.inr ⟨rfl, ?_, rfl, rfl, rfl⟩))
    simp [executor, setExec, Thread.setStack, Executor.new]
  | _ =>
    exact .inl ⟨rfl, rfl, rfl, fun _ => rfl, fun _ => rfl, fun f x => by
      simp [emit, Thread.setStack, Thread.setTask, Thread.abort, enterBlockOn, Thread.sleep,
        Thread.panic]⟩

/-! ## The length of the buffer -/

/-- What holds of the `Fd`s of a thread in every reachable state. -/
structure EventsOk (s : Thread V) : Prop where
  live_lt : ∀ f, (s.fds f).live = true → f < s.nFds
  exec_le : ∀ f, (s.fds f).exec ≤ s.cur
  dropped_lt : ∀ f x, .fdDropped f x ∈ s.log → f < s.nFds ∧ x ≤ s.cur
  /-- The buffer has one entry for the pipe and one for each `Fd`. -/
  own : s.DropsOwn → s.executor.events = 1 + (s.registered s.cur).card
  /-- Once a foreign `Fd` has been dropped the buffer stays too short. -/
  foreign : ¬ s.DropsOwn → s.executor.events < 1 + (s.registered s.cur).card

/-- The length of the buffer, whatever has been dropped. -/
lemma EventsOk.le (h : s.EventsOk) : s.executor.events ≤ 1 + (s.registered s.cur).card := by
  by_cases ho : s.DropsOwn
  · exact (h.own ho).le
  · exact (h.foreign ho).le

/-- The buffer keeps its length when the `Fd`s stay registered. -/
lemma EventsOk.sameFds (h : s.EventsOk) (hs : SameFds s s') : s'.EventsOk := by
  have hreg : s'.registered s'.cur = s.registered s.cur := by
    simp only [registered, hs.nFds, hs.live, hs.exec, hs.cur]
  have hown : s'.DropsOwn ↔ s.DropsOwn := by
    simp only [DropsOwn, hs.dropped, hs.exec, hs.cur]
  refine ⟨fun f hf => ?_, fun f => ?_, fun f x hx => ?_, fun ho => ?_, fun ho => ?_⟩
  · exact hs.nFds ▸ h.live_lt f (hs.live f ▸ hf)
  · rw [hs.exec, hs.cur]
    exact h.exec_le f
  · rw [hs.nFds, hs.cur]
    exact h.dropped_lt f x ((hs.dropped f x).mp hx)
  · rw [hreg, hs.events]
    exact h.own (hown.mp ho)
  · rw [hreg, hs.events]
    exact h.foreign fun hn => ho (hown.mpr hn)

/-- Dropping an `Fd` takes it from the registered ones. -/
lemma registered_fdDrop (s : Thread V) (f : FdId) (x : ExecId) :
    (s.fdDrop f).registered x = (s.registered x).erase f := by
  ext g
  by_cases hg : g = f
  · simp [registered, fdDrop, emit, setFd, epollDel, setExec, hg]
  · simp [registered, fdDrop, emit, setFd, epollDel, setExec, hg]

/-- Dropping an `Fd` shortens the buffer by one entry, if there is one. -/
lemma EventsOk.fdDrop (h : s.EventsOk) {f : FdId} (hf : (s.fds f).live = true) :
    (s.fdDrop f).EventsOk := by
  have hexec : ∀ g, ((s.fdDrop f).fds g).exec = (s.fds g).exec := by
    intro g
    by_cases hg : g = f
    · simp [Thread.fdDrop, emit, setFd, epollDel, setExec, hg]
    · simp [Thread.fdDrop, emit, setFd, epollDel, setExec, hg]
  have hevents : (s.fdDrop f).executor.events = s.executor.events - 1 := by
    simp [Thread.fdDrop, emit, setFd, epollDel, setExec, executor]
  have hlog : (s.fdDrop f).log = .fdDropped f s.cur :: s.log := rfl
  have hlt := h.live_lt f hf
  have hle := h.le
  have hcur : (s.fdDrop f).cur = s.cur := rfl
  have hown : (s.fdDrop f).DropsOwn ↔ (s.fds f).exec = s.cur ∧ s.DropsOwn := by
    simp only [DropsOwn, hexec, hlog, hcur, List.mem_cons, Event.fdDropped.injEq, and_true]
    exact ⟨fun hd => ⟨hd f (.inl rfl), fun g hg => hd g (.inr hg)⟩,
      fun hd g hg => hg.elim (fun hg => hg ▸ hd.1) (hd.2 g)⟩
  have hmem : f ∈ s.registered s.cur ↔ (s.fds f).exec = s.cur := by
    simp [registered, hlt, hf]
  refine ⟨fun g hg => ?_, fun g => hexec g ▸ h.exec_le g, fun g x hx => ?_, fun ho => ?_,
    fun ho => ?_⟩
  · by_cases hgf : g = f
    · exact hgf ▸ hlt
    · exact h.live_lt g (by simpa [Thread.fdDrop, emit, setFd, epollDel, setExec, hgf] using hg)
  · rcases List.mem_cons.mp hx with hx | hx
    · obtain ⟨rfl, rfl⟩ : g = f ∧ x = s.cur := by simpa using hx
      exact ⟨hlt, le_rfl⟩
    · exact h.dropped_lt g x hx
  · obtain ⟨hfx, ho⟩ := hown.mp ho
    have hcard := Finset.card_pos.mpr ⟨f, hmem.mpr hfx⟩
    rw [hevents, hcur, registered_fdDrop, Finset.card_erase_of_mem (hmem.mpr hfx), h.own ho]
    omega
  · rw [hevents, hcur, registered_fdDrop]
    by_cases hfx : (s.fds f).exec = s.cur
    · have hcard := Finset.card_pos.mpr ⟨f, hmem.mpr hfx⟩
      have hlt := h.foreign fun hn => ho (hown.mpr ⟨hfx, hn⟩)
      rw [Finset.card_erase_of_mem (hmem.mpr hfx)]
      omega
    · rw [Finset.erase_eq_of_notMem fun hm => hfx (hmem.mp hm)]
      omega

/-- Creating an `Fd` makes the buffer longer by one entry. -/
lemma EventsOk.addFd (h : s.EventsOk) {fd : Fd} (interest : List (RawFd × FdId))
    (hlive : fd.live = true) (hexec : fd.exec = s.cur) : (s.addFd fd interest).EventsOk := by
  have hfds : (s.addFd fd interest).fds = Function.update s.fds s.nFds fd := rfl
  have hcur : (s.addFd fd interest).cur = s.cur := rfl
  have hnFds : (s.addFd fd interest).nFds = s.nFds + 1 := rfl
  have hlog : (s.addFd fd interest).log = s.log := rfl
  have hevents : (s.addFd fd interest).executor.events = s.executor.events + 1 := by
    simp [Thread.addFd, setExec, executor]
  have hreg : (s.addFd fd interest).registered (s.addFd fd interest).cur =
      insert s.nFds (s.registered s.cur) := by
    ext g
    by_cases hg : g = s.nFds
    · simp [registered, hnFds, hfds, hcur, hg, hlive, hexec]
    · simp only [registered, hnFds, hfds, hcur, Finset.mem_filter, Finset.mem_range,
        Finset.mem_insert, Function.update_of_ne hg, hg, false_or]
      exact and_congr_left fun hg' =>
        ⟨fun _ => h.live_lt g hg'.1, fun hlt => hlt.trans (Nat.lt_succ_self _)⟩
  have hnot : s.nFds ∉ s.registered s.cur := by simp [registered]
  have hown : (s.addFd fd interest).DropsOwn ↔ s.DropsOwn := by
    simp only [DropsOwn, hlog, hcur, hfds]
    refine forall_congr' fun g => imp_congr_right fun hg => ?_
    rw [Function.update_of_ne (h.dropped_lt g _ hg).1.ne]
  refine ⟨fun g hg => ?_, fun g => ?_, fun g x hx => ?_, fun ho => ?_, fun ho => ?_⟩
  · rw [hnFds]
    by_cases hgn : g = s.nFds
    · exact hgn ▸ Nat.lt_succ_self _
    · rw [hfds, Function.update_of_ne hgn] at hg
      exact (h.live_lt g hg).trans (Nat.lt_succ_self _)
  · rw [hfds, hcur]
    by_cases hgn : g = s.nFds
    · simp [hgn, hexec]
    · rw [Function.update_of_ne hgn]
      exact h.exec_le g
  · exact ⟨(h.dropped_lt g x hx).1.trans (Nat.lt_succ_self _), (h.dropped_lt g x hx).2⟩
  · rw [hevents, hreg, Finset.card_insert_of_notMem hnot, h.own (hown.mp ho)]
    omega
  · have hlt := h.foreign fun hn => ho (hown.mpr hn)
    rw [hevents, hreg, Finset.card_insert_of_notMem hnot]
    omega

/-- `Fd::new`, successful or not, keeps the length of the buffer right. -/
lemma EventsOk.fdNew (h : s.EventsOk) (raw : RawFd) (events : EpollFlags) (fcntl ctl : Bool) :
    (s.fdNew raw events fcntl ctl).EventsOk := by
  rcases fdNew_cases s raw events fcntl ctl with hs | ⟨fd, interest, hlive, hexec, hs | hs⟩ <;>
    rw [hs]
  · exact h
  · exact h.addFd interest hlive hexec
  · refine (h.addFd interest hlive hexec).fdDrop ?_
    simp [Thread.addFd, setExec, hlive]

/-- Every move keeps the length of the buffer right. -/
lemma Move.eventsOk {a : Action V} (hm : Move s a s') (h : s.EventsOk) : s'.EventsOk := by
  rcases hm.sameFds with hs | ⟨raw, events, fcntl, ctl, rfl⟩ | ⟨f, hf, rfl⟩ |
    ⟨hcur, hevents, hnFds, hfds, hlog⟩
  · exact h.sameFds hs
  · exact h.fdNew raw events fcntl ctl
  · exact h.fdDrop hf
  · have hreg : s'.registered s'.cur = ∅ := by
      simp only [registered, hfds, hcur, Finset.filter_eq_empty_iff]
      exact fun f _ hf => ((h.exec_le f).trans_lt (Nat.lt_succ_self _)).ne hf.2
    have hown : s'.DropsOwn := by
      intro f hf
      rw [hcur, hlog] at hf
      exact absurd (h.dropped_lt f _ hf).2 (Nat.not_succ_le_self _)
    refine ⟨fun f hf => ?_, fun f => ?_, fun f x hx => ?_, fun _ => by simp [hreg, hevents],
      fun ho => absurd hown ho⟩
    · rw [hfds] at hf
      exact hnFds ▸ h.live_lt f hf
    · rw [hfds, hcur]
      exact (h.exec_le f).trans (Nat.le_succ _)
    · rw [hlog] at hx
      rw [hnFds, hcur]
      exact ⟨(h.dropped_lt f x hx).1, (h.dropped_lt f x hx).2.trans (Nat.le_succ _)⟩

/-- The buffer of the current executor has one entry for the pipe and one for each live `Fd` registered
with it exactly if no `Fd` of another executor has been dropped in its place. -/
theorem events_length_iff (h : Reachable step IsStart s) :
    s.executor.events = 1 + (s.registered s.cur).card ↔
      ∀ f, .fdDropped f s.cur ∈ s.log → (s.fds f).exec = s.cur := by
  have hok : s.EventsOk := by
    refine h.invariant (P := EventsOk) ?_ ?_
    · rintro s ⟨pipeWr, pipeCapacity, -, rfl⟩
      have hlive : (default : Fd).live = false := rfl
      have hexec : (default : Fd).exec = 0 := rfl
      constructor <;> simp [start, hlive, hexec, DropsOwn, registered, executor, Executor.new]
    · intro s a s' _ hok _ hstep
      exact (move_of_step hstep).2.eventsOk hok
  refine ⟨fun heq => ?_, hok.own⟩
  by_contra ho
  exact (hok.foreign ho).ne heq

/-- A thread with one `Fd`, after another could not be registered. -/
theorem events_length_after_failure : ∃ s : Thread Unit, Reachable step IsStart s ∧
    (s.registered s.cur).card = 1 ∧ s.executor.events = 1 + (s.registered s.cur).card := by
  obtain ⟨s, hs, h⟩ := exists_reachable (V := Unit) [.fdNew 7 1 true true, .fdNew 8 1 true false]
    (fun s => decide (s.log = [.fdDropped 1 0] ∧ (s.fds 1).exec = s.cur ∧
      (s.registered s.cur).card = 1)) (by decide)
  obtain ⟨hlog, hexec, hcard⟩ := of_decide_eq_true h
  refine ⟨s, hs, hcard, (events_length_iff hs).mpr fun f hf => ?_⟩
  obtain ⟨rfl, -⟩ : f = 1 ∧ s.cur = 0 := by simpa [hlog] using hf
  exact hexec

/-- An `Fd` in a task that another task's shutdown leaves behind is dropped while the new executor is in
place, whose buffer is empty from then on. -/
theorem events_empty : ∃ s : Thread Unit, Reachable step IsStart s ∧ s.executor.events = 0 ∧
    s.registered s.cur = ∅ := by
  obtain ⟨s, hs, h⟩ := exists_reachable (V := Unit)
    [.spawn .normal, .dropHandle 0, .run, .go (.ok []), .fdNew 7 1 true true, .shutdown, .pending,
      .go (.ok []), .go (.ok []), .replace (some 5), .go (.ok []), .fdDrop 0, .finish, .go (.ok [])]
    (fun s => decide (s.executor.events = 0 ∧ s.registered s.cur = ∅)) (by decide)
  exact ⟨s, hs, of_decide_eq_true h⟩

end Thread

end Epox

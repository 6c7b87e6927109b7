import Epox.Foundation.Transition
import Mathlib.Data.Finset.Basic
import Mathlib.Data.Finset.Lattice.Lemmas
import Mathlib.Logic.Function.Basic

/-!
# The signal mask

`AsyncSignal::new` blocks the signals that it is going to receive, and the drop of an `AsyncSignal`
unblocks them.  `SignalMask` is the mask of a thread that leaves it alone otherwise, together with the
signal sets of the `AsyncSignal`s on it.

The constructor has five steps that can fail, and the mask is changed before the last of them.
-/

namespace Epox

/-- The number of a signal. -/
abbrev Signal := ℕ

/-- `SigSet`. -/
abbrev SigSet := Finset Signal

/-- `SIGKILL` and `SIGSTOP`: the kernel silently ignores attempts to block them. -/
def unblockable : SigSet := {9, 19}

/-- The errors of `AsyncSignal::new`. -/
inductive SignalError
  /-- `Error::other`. -/
  | other (text : String)
  /-- The error of a system call, or of `Fd::new`. -/
  | os
  deriving DecidableEq

/-- Which of the calls that `AsyncSignal::new` makes succeed, if they are made. -/
structure SignalAnswers where
  getMask : Bool
  signalfd : Bool
  setMask : Bool
  fdNew : Bool

/-- The signal mask of a thread and its `AsyncSignal`s. -/
structure SignalMask where
  /-- The mask before the first `AsyncSignal` was made. -/
  initial : SigSet
  mask : SigSet
  /-- The signal sets of the `AsyncSignal`s that have not been dropped. -/
  sigset : ℕ → Option SigSet
  nSignals : ℕ

namespace SignalMask

variable {s s' : SignalMask}

/-! ## The functions of the source -/

/-- `pthread_sigmask` with `SIG_BLOCK`. -/
def block (s : SignalMask) (set : SigSet) : SignalMask :=
  { s with mask := (s.mask ∪ set) \ unblockable }

/-- `pthread_sigmask` with `SIG_UNBLOCK`. -/
def unblock (s : SignalMask) (set : SigSet) : SignalMask :=
  { s with mask := s.mask \ set }

/-- `AsyncSignal::new`. -/
def new (s : SignalMask) (set : SigSet) (o : SignalAnswers) : SignalMask × Except SignalError ℕ :=
  if set = ∅ then
    (s, .error (.other "empty sigset"))
  else if !o.getMask then
    (s, .error .os)
  else if ∃ signal ∈ set, signal ∈ s.mask then
    (s, .error (.other "signal is blocked"))
  else if !o.signalfd then
    (s, .error .os)
  else if !o.setMask then
    (s, .error .os)
  else
    let s' := s.block set
    if o.fdNew then
      ({ s' with
          sigset := Function.update s'.sigset s.nSignals (some set)
          nSignals := s.nSignals + 1 }, .ok s.nSignals)
    else
      (s', .error .os)

/-- `AsyncSignal::drop`. -/
def drop (s : SignalMask) (i : ℕ) (set : SigSet) : SignalMask :=
  { s.unblock set with sigset := Function.update s.sigset i none }

/-! ## Steps -/

/-- What the code of the caller does. -/
inductive Action
  | new (set : SigSet) (o : SignalAnswers)
  | drop (i : ℕ)

/-- One step. -/
def step (s : SignalMask) : Action → Option SignalMask
  | .new set o => some (s.new set o).1
  | .drop i => (s.sigset i).map fun set => s.drop i set

/-- There are no `AsyncSignal`s yet. -/
def IsStart (s : SignalMask) : Prop :=
  Disjoint s.mask unblockable ∧ s.initial = s.mask ∧ ∀ i, s.sigset i = none

/-! ## The mask and the signal sets -/

/-- The mask is the initial one with the signals of all `AsyncSignal`s, none of which is in two of
these. -/
structure Covered (s : SignalMask) : Prop where
  mem_mask : ∀ x, x ∈ s.mask ↔ x ∈ s.initial ∨ ∃ i set, s.sigset i = some set ∧ x ∈ set
  initial : ∀ i set, s.sigset i = some set → Disjoint set s.initial
  pairwise : ∀ i j set set', i ≠ j → s.sigset i = some set → s.sigset j = some set' →
    Disjoint set set'

/-- `AsyncSignal::new` gets as far as `Fd::new`. -/
def Reaches (s : SignalMask) (set : SigSet) (o : SignalAnswers) : Prop :=
  set ≠ ∅ ∧ o.getMask = true ∧ Disjoint set s.mask ∧ o.signalfd = true ∧ o.setMask = true

/-- A call that gets as far as `Fd::new` has blocked no signal if it fails there, and all signals of its
set if it does not. -/
def Clean (s : SignalMask) : Action → Prop
  | .new set o => s.Reaches set o →
      if o.fdNew then Disjoint set unblockable else set ⊆ unblockable
  | .drop _ => True

instance (s : SignalMask) (set : SigSet) (o : SignalAnswers) : Decidable (s.Reaches set o) :=
  inferInstanceAs (Decidable (_ ∧ _))

instance (s : SignalMask) : DecidablePred s.Clean
  | .new set o => inferInstanceAs (Decidable (s.Reaches set o →
      if o.fdNew then Disjoint set unblockable else set ⊆ unblockable))
  | .drop _ => inferInstanceAs (Decidable True)

/-- What a call of `AsyncSignal::new` does. -/
lemma new_cases (s : SignalMask) (set : SigSet) (o : SignalAnswers) :
    (¬ s.Reaches set o ∧ ∃ e, s.new set o = (s, .error e)) ∨
    (s.Reaches set o ∧ o.fdNew = false ∧ s.new set o = (s.block set, .error .os)) ∨
    (s.Reaches set o ∧ o.fdNew = true ∧ s.new set o =
      ({ s.block set with
          sigset := Function.update s.sigset s.nSignals (some set)
          nSignals := s.nSignals + 1 }, .ok s.nSignals)) := by
  by_cases hr : s.Reaches set o
  · have ⟨hne, hget, hdisj, hfd, hset⟩ := hr
    have hnot : ¬ ∃ signal ∈ set, signal ∈ s.mask := fun ⟨x, hx, hm⟩ =>
      Finset.disjoint_left.mp hdisj hx hm
    right
    cases hnew : o.fdNew with
    | false =>
      refine .inl ⟨hr, rfl, ?_⟩
      simp [new, hne, hget, hnot, hfd, hset, hnew]
    | true =>
      refine .inr ⟨hr, rfl, ?_⟩
      simp [new, hne, hget, hnot, hfd, hset, hnew, block]
  · refine .inl ⟨hr, ?_⟩
    have hpassed : ¬ set = ∅ → ¬ (!o.getMask) = true → (¬ ∃ signal ∈ set, signal ∈ s.mask) →
        ¬ (!o.signalfd) = true → ¬ (!o.setMask) = true → s.Reaches set o :=
      fun hne hget hblocked hfd hset => ⟨hne, by simpa using hget,
        Finset.disjoint_left.mpr fun x hx hm => hblocked ⟨x, hx, hm⟩, by simpa using hfd,
        by simpa using hset⟩
    unfold new
    split_ifs with hne hget hblocked hfd hset
    any_goals exact ⟨_, rfl⟩
    all_goals exact absurd (hpassed hne hget hblocked hfd hset) hr

/-- What holds of the identifiers and the mask in every reachable state. -/
structure Sane (s : SignalMask) : Prop where
  unused : ∀ i, s.nSignals ≤ i → s.sigset i = none
  mask : Disjoint s.mask unblockable

/-- Blocked signals are not unblockable. -/
lemma block_mask_disjoint (s : SignalMask) (set : SigSet) : Disjoint (s.block set).mask unblockable :=
  Finset.sdiff_disjoint

/-- Every step keeps a mask sane. -/
lemma Sane.step (h : s.Sane) {a : Action} (hs : s.step a = some s') : s'.Sane := by
  cases a with
  | new set o =>
    obtain rfl := Option.some.inj hs
    rcases new_cases s set o with ⟨-, e, hn⟩ | ⟨-, -, hn⟩ | ⟨-, -, hn⟩ <;> rw [hn]
    · exact h
    · exact ⟨h.unused, block_mask_disjoint s set⟩
    · refine ⟨fun i hi => ?_, block_mask_disjoint s set⟩
      have hne : i ≠ s.nSignals := (Nat.lt_of_succ_le hi).ne'
      simpa [hne] using h.unused i (Nat.le_of_succ_le hi)
  | drop i =>
    obtain ⟨set, hset, rfl⟩ := Option.map_eq_some_iff.mp hs
    refine ⟨fun j hj => ?_, h.mask.mono_left Finset.sdiff_subset⟩
    by_cases hij : j = i
    · simp [drop, hij]
    · simpa [drop, unblock, hij] using h.unused j hj

/-- Blocking the signals of a new `AsyncSignal` keeps the mask covered exactly if the kernel blocks all
of them. -/
lemma covered_new_iff (h : s.Covered) (hs : s.Sane) {set : SigSet} (hdisj : Disjoint set s.mask) :
    Covered { s.block set with
      sigset := Function.update s.sigset s.nSignals (some set)
      nSignals := s.nSignals + 1 } ↔ Disjoint set unblockable := by
  have hfresh : ∀ i set', s.sigset i = some set' → i ≠ s.nSignals := by
    rintro i set' hi rfl
    simp [hs.unused _ le_rfl] at hi
  have hmask : ∀ i set', s.sigset i = some set' → Disjoint set set' := fun i set' hi =>
    Finset.disjoint_left.mpr fun x hx hx' =>
      Finset.disjoint_left.mp hdisj hx ((h.mem_mask x).mpr (.inr ⟨i, set', hi, hx'⟩))
  constructor
  · intro h'
    refine Finset.disjoint_left.mpr fun x hx hu => ?_
    have hx' := (h'.mem_mask x).mpr (.inr ⟨s.nSignals, set, by simp, hx⟩)
    exact (Finset.mem_sdiff.mp hx').2 hu
  · intro hblockable
    refine ⟨fun x => ?_, fun i set' hi => ?_, fun i j set₁ set₂ hij hi hj => ?_⟩
    · have hmem : x ∈ (s.block set).mask ↔ x ∈ s.mask ∨ x ∈ set := by
        simp only [block, Finset.mem_sdiff, Finset.mem_union, and_iff_left_iff_imp]
        rintro (hx | hx)
        · exact Finset.disjoint_left.mp hs.mask hx
        · exact Finset.disjoint_left.mp hblockable hx
      rw [hmem, h.mem_mask, or_assoc]
      refine or_congr_right ⟨?_, ?_⟩
      · rintro (⟨i, set', hi, hx⟩ | hx)
        · exact ⟨i, set', by simpa [hfresh i set' hi] using hi, hx⟩
        · exact ⟨s.nSignals, set, by simp, hx⟩
      · rintro ⟨i, set', hi, hx⟩
        by_cases hin : i = s.nSignals
        · obtain rfl : set = set' := by simpa [hin] using hi
          exact .inr hx
        · exact .inl ⟨i, set', by simpa [hin] using hi, hx⟩
    · by_cases hin : i = s.nSignals
      · obtain rfl : set = set' := by simpa [hin] using hi
        exact Finset.disjoint_left.mpr fun x hx hx' =>
          Finset.disjoint_left.mp hdisj hx ((h.mem_mask x).mpr (.inl hx'))
      · exact h.initial i set' (by simpa [hin] using hi)
    · by_cases hin : i = s.nSignals
      · obtain rfl : set = set₁ := by simpa [hin] using hi
        have hjn : j ≠ s.nSignals := hin ▸ hij.symm
        exact hmask j set₂ (by simpa [hjn] using hj)
      · by_cases hjn : j = s.nSignals
        · obtain rfl : set = set₂ := by simpa [hjn] using hj
          exact (hmask i set₁ (by simpa [hin] using hi)).symm
        · exact h.pairwise i j set₁ set₂ hij (by simpa [hin] using hi) (by simpa [hjn] using hj)

/-- Blocking signals that cannot be blocked changes nothing. -/
lemma block_eq_self (hs : s.Sane) {set : SigSet} (hsub : set ⊆ unblockable) : s.block set = s := by
  have hmask : (s.mask ∪ set) \ unblockable = s.mask := by
    rw [Finset.union_sdiff_distrib, Finset.sdiff_eq_empty_iff_subset.mpr hsub, Finset.union_empty,
      Finset.sdiff_eq_self_of_disjoint hs.mask]
  simp [block, hmask]

/-- Signals that stay blocked after a failure are covered exactly if there are none. -/
lemma covered_block_iff (h : s.Covered) (hs : s.Sane) {set : SigSet} (hdisj : Disjoint set s.mask) :
    (s.block set).Covered ↔ set ⊆ unblockable := by
  constructor
  · intro h' x hx
    by_contra hu
    have hmem : x ∈ (s.block set).mask :=
      Finset.mem_sdiff.mpr ⟨Finset.mem_union_right _ hx, hu⟩
    exact Finset.disjoint_left.mp hdisj hx ((h.mem_mask x).mpr ((h'.mem_mask x).mp hmem))
  · intro hsub
    rwa [block_eq_self hs hsub]

/-- The drop of an `AsyncSignal` unblocks its own signals and no others. -/
lemma Covered.drop (h : s.Covered) {i : ℕ} {set : SigSet} (hi : s.sigset i = some set) :
    (s.drop i set).Covered := by
  have hother : ∀ j set', (s.drop i set).sigset j = some set' → j ≠ i ∧ s.sigset j = some set' := by
    intro j set' hj
    by_cases hji : j = i
    · simp [SignalMask.drop, hji] at hj
    · exact ⟨hji, by simpa [SignalMask.drop, unblock, hji] using hj⟩
  refine ⟨fun x => ?_, fun j set' hj => h.initial j set' (hother j set' hj).2,
    fun j l set₁ set₂ hjl hj hl => h.pairwise j l set₁ set₂ hjl (hother j _ hj).2 (hother l _ hl).2⟩
  have hmem : x ∈ (s.drop i set).mask ↔ x ∈ s.mask ∧ x ∉ set := Finset.mem_sdiff
  rw [hmem, h.mem_mask]
  constructor
  · rintro ⟨hx | ⟨j, set', hj, hx⟩, hnot⟩
    · exact .inl hx
    · have hji : j ≠ i := by
        rintro rfl
        obtain rfl : set' = set := Option.some.inj (hj.symm.trans hi)
        exact hnot hx
      exact .inr ⟨j, set', by simpa [SignalMask.drop, unblock, hji] using hj, hx⟩
  · rintro (hx | ⟨j, set', hj, hx⟩)
    · exact ⟨.inl hx, fun hx' => Finset.disjoint_left.mp (h.initial i set hi) hx' hx⟩
    · obtain ⟨hji, hj⟩ := hother j set' hj
      exact ⟨.inr ⟨j, set', hj, hx⟩, Finset.disjoint_left.mp (h.pairwise j i set' set hji hj hi) hx⟩

/-- A step keeps the mask covered exactly if it is clean. -/
lemma covered_step_iff (h : s.Covered) (hs : s.Sane) {a : Action} (hstep : s.step a = some s') :
    s'.Covered ↔ s.Clean a := by
  cases a with
  | new set o =>
    obtain rfl := Option.some.inj hstep
    rcases new_cases s set o with ⟨hr, e, hn⟩ | ⟨hr, ho, hn⟩ | ⟨hr, ho, hn⟩ <;>
      simp only [hn, Clean, hr, forall_const, false_imp_iff, iff_true]
    · exact h
    · rw [if_neg (by simp [ho])]
      exact covered_block_iff h hs hr.2.2.1
    · rw [if_pos ho]
      exact covered_new_iff h hs hr.2.2.1
  | drop i =>
    obtain ⟨set, hset, rfl⟩ := Option.map_eq_some_iff.mp hstep
    exact iff_of_true (h.drop hset) trivial

/-- Every mask that is reached is sane. -/
lemma sane_of_reachable (h : Reachable step IsStart s) : s.Sane :=
  h.invariant (fun _ h => ⟨fun i _ => h.2.2 i, h.1⟩) fun _ _ _ _ ih _ hs => ih.step hs

/-- A thread that blocks signal 1 itself. -/
def blocksOne : SignalMask := ⟨{1}, {1}, fun _ => none, 0⟩

/-- No signal of `blocksOne` is received. -/
lemma isStart_blocksOne : IsStart blocksOne := ⟨by decide, rfl, fun _ => rfl⟩

end SignalMask

end Epox

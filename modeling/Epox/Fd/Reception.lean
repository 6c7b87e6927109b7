import Epox.Fd.Device
import Epox.Fd.Signal
import Epox.Foundation.History
import Mathlib.Data.Finset.Card
import Mathlib.Data.Finset.Max

/-!
# The reception of signals

What an `AsyncSignal` is for: from the time when it is made until it is dropped, its signals are handed to
`AsyncSignal::receive` and not to their default dispositions.

`SignalState` is what the kernel keeps for the thread: its signal mask, its pending signals, and a history of
what has become of the signals.  Only signals that are directed at the thread are modelled: one that is sent to
the whole process may be taken by any of its threads.  A signal that is raised while it is blocked becomes
pending, once only, and is handled according to its default disposition otherwise; unblocking signals handles
those that are pending.  `signals` is the device whose objects are the `AsyncSignal`s.
-/

namespace Epox

/-- What has become of signals, and of `AsyncSignal`s. -/
inductive SignalLog
  | raised (x : Signal)
  /-- The signals have been handled according to their default dispositions. -/
  | handled (set : SigSet)
  /-- `AsyncSignal::new` has made the `AsyncSignal`. -/
  | made (i : ℕ)
  /-- `AsyncSignal::receive` of the `AsyncSignal` has returned the signal. -/
  | received (i : ℕ) (x : Signal)
  deriving DecidableEq

namespace SignalLog

/-- The signal has been handled according to its default disposition. -/
def Handles (x : Signal) (e : SignalLog) : Prop := ∃ set, e = .handled set ∧ x ∈ set

/-- The `AsyncSignal` has been made, or has received the signal. -/
def Renews (i : ℕ) (x : Signal) (e : SignalLog) : Prop := e = .made i ∨ e = .received i x

/-- If the event is the receipt of a signal by an `AsyncSignal`, it has become pending since the previous
receipt, or since the `AsyncSignal` was made. -/
def Justified (e : SignalLog) (h : List SignalLog) : Prop :=
  ∀ i x, e = .received i x → Since (· = .raised x) (Renews i x) h

/-- The signal that the `AsyncSignal` has received. -/
def receivedBy (i : ℕ) : SignalLog → Option Signal
  | .received j x => if j = i then some x else none
  | _ => none

end SignalLog

/-- The signal mask of a thread, its pending signals, and what has become of signals, the latest first. -/
structure SignalState where
  signals : SignalMask
  pending : SigSet
  log : List SignalLog

namespace SignalState

variable (k : SignalState)

/-- The pending signals that an `AsyncSignal` can receive. -/
def receivable (i : ℕ) : SigSet := k.pending ∩ (k.signals.sigset i).getD ∅

/-- A signal is raised. -/
def raise (x : Signal) : SignalState :=
  if x ∈ k.signals.mask then
    { k with pending := insert x k.pending, log := .raised x :: k.log }
  else
    { k with log := .handled {x} :: .raised x :: k.log }

/-- `AsyncSignal::new`. -/
def new (set : SigSet) (o : SignalAnswers) : SignalState :=
  match k.signals.new set o with
  | (s, .ok i) => { k with signals := s, log := .made i :: k.log }
  | (s, .error _) => { k with signals := s }

/-- `AsyncSignal::drop`. -/
def drop (i : ℕ) (set : SigSet) : SignalState :=
  { k with
    signals := k.signals.drop i set
    pending := k.pending \ set
    log := .handled (k.pending ∩ set) :: k.log }

/-- `read(2)` takes out a signal. -/
def take (i : ℕ) (x : Signal) : SignalState :=
  { k with pending := k.pending.erase x, log := .received i x :: k.log }

/-- `read(2)` of the descriptor of an `AsyncSignal`; the kernel chooses a signal, and `none` is for
`EAGAIN`. -/
def read (i : ℕ) (choice : Signal) : Option (SignalState × Signal) :=
  if h : (k.receivable i).Nonempty then
    let x := if choice ∈ k.receivable i then choice else (k.receivable i).min' h
    some (k.take i x, x)
  else
    none

/-- No `AsyncSignal` has been made, and only blocked signals are pending. -/
def Fresh : Prop := k.signals.IsStart ∧ k.pending ⊆ k.signals.mask ∧ k.log = []

end SignalState

/-- What happens to signals outside of `AsyncSignal::receive`. -/
inductive SignalEvent
  | raise (x : Signal)
  | new (set : SigSet) (o : SignalAnswers)
  | drop (i : ℕ)

/-- What becomes of the signals. -/
def SignalEvent.apply (k : SignalState) : SignalEvent → Option SignalState
  | .raise x => some (k.raise x)
  | .new set o => some (k.new set o)
  | .drop i => (k.signals.sigset i).map fun set => k.drop i set

namespace SignalState

variable {k k' : SignalState} {i : ℕ} {x : Signal} {set : SigSet}

/-! ## What the system calls do -/

/-- What can be received is pending and in the signal set. -/
lemma mem_receivable :
    x ∈ k.receivable i ↔ x ∈ k.pending ∧ ∃ set, k.signals.sigset i = some set ∧ x ∈ set := by
  cases h : k.signals.sigset i <;> simp [receivable, h]

/-- A read takes out a signal that can be received. -/
lemma read_eq_some {choice : Signal} (h : k.read i choice = some (k', x)) :
    x ∈ k.receivable i ∧ k' = k.take i x := by
  unfold read at h
  split_ifs at h with hne hchoice
  · obtain ⟨rfl, rfl⟩ := Prod.mk.inj (Option.some.inj h)
    exact ⟨hchoice, rfl⟩
  · obtain ⟨rfl, rfl⟩ := Prod.mk.inj (Option.some.inj h)
    exact ⟨Finset.min'_mem _ hne, rfl⟩

/-- A read does not fail with `EAGAIN` if a signal can be received. -/
lemma read_ne_none (choice : Signal) (h : (k.receivable i).Nonempty) : k.read i choice ≠ none := by
  simp [read, h]

/-- A call of `AsyncSignal::new` makes an `AsyncSignal` of signals that were not blocked, or it makes
none. -/
lemma new_cases (k : SignalState) (set : SigSet) (o : SignalAnswers) :
    (k.new set o = { k with signals := (k.signals.new set o).1 } ∧
        ((k.signals.new set o).1 = k.signals ∨ (k.signals.new set o).1 = k.signals.block set)) ∨
      (Disjoint set k.signals.mask ∧ k.new set o =
        { k with
          signals := { k.signals.block set with
            sigset := Function.update k.signals.sigset k.signals.nSignals (some set)
            nSignals := k.signals.nSignals + 1 }
          log := .made k.signals.nSignals :: k.log }) := by
  rcases SignalMask.new_cases k.signals set o with ⟨-, e, hn⟩ | ⟨-, -, hn⟩ | ⟨hr, -, hn⟩
  · exact .inl ⟨by rw [new, hn], .inl (by rw [hn])⟩
  · exact .inl ⟨by rw [new, hn], .inr (by rw [hn])⟩
  · exact .inr ⟨hr.2.2.1, by rw [new, hn]⟩

end SignalState

/-- The `AsyncSignal`s of a thread. -/
abbrev signals : Device where
  State := SignalState
  Object := ℕ
  Request := Unit
  Choice := Signal
  Result := Signal
  Event := SignalEvent
  Fresh := SignalState.Fresh
  direction _ := .epollIn
  ready k i := decide (k.receivable i).Nonempty
  event := SignalEvent.apply
  operate k i _ choice := k.read i choice
  direction_ne := EpollFlags.epollIn_ne_zero ℕ
  direction_le := EpollFlags.epollIn_and_directions ℕ
  operates _ _ _ choice h := SignalState.read_ne_none choice (of_decide_eq_true h)

/-! ## The signals of an `AsyncSignal` -/

namespace SignalState

variable {k k' : SignalState} {i j : ℕ} {x : Signal} {set : SigSet}

/-- The `AsyncSignal` is there to receive the signal. -/
def Receives (k : SignalState) (i : ℕ) (x : Signal) : Prop :=
  x ∉ unblockable ∧ ∃ set, k.signals.sigset i = some set ∧ x ∈ set

/-- What holds of the signals in every state. -/
structure Ok (k : SignalState) : Prop where
  sane : k.signals.Sane
  pending : k.pending ⊆ k.signals.mask
  known : ∀ i, .made i ∈ k.log → i < k.signals.nSignals
  blocked : ∀ i x, k.Receives i x → x ∈ k.signals.mask
  unique : ∀ i j x, k.Receives i x → k.Receives j x → i = j
  spared : ∀ i x, k.Receives i x → ¬ After (· = .made i) (SignalLog.Handles x) k.log
  pending_iff : ∀ i x, k.Receives i x →
    (x ∈ k.pending ↔ Since (· = .raised x) (SignalLog.Renews i x) k.log)
  justified : Each SignalLog.Justified k.log

/-- A pending signal in the set of an `AsyncSignal` can be received by it. -/
lemma Ok.receives (h : k.Ok) (hx : x ∈ k.receivable i) : k.Receives i x := by
  obtain ⟨hp, hset⟩ := mem_receivable.mp hx
  exact ⟨Finset.disjoint_left.mp h.sane.mask (h.pending hp), hset⟩

/-- At first. -/
lemma Fresh.ok (h : k.Fresh) : k.Ok := by
  obtain ⟨hstart, hpending, hlog⟩ := h
  have hnone : ∀ i x, ¬ k.Receives i x := by
    rintro i x ⟨-, set, hset, -⟩
    simp [hstart.2.2] at hset
  exact ⟨⟨fun i _ => hstart.2.2 i, hstart.1⟩, hpending, by simp [hlog], fun i x h => absurd h (hnone i x),
    fun i _ x h => absurd h (hnone i x), fun i x h => absurd h (hnone i x),
    fun i x h => absurd h (hnone i x), by simp [hlog]⟩

/-- A signal is raised. -/
lemma Ok.raise (h : k.Ok) (y : Signal) : (k.raise y).Ok := by
  have hsignals : (k.raise y).signals = k.signals := by
    unfold SignalState.raise
    split <;> rfl
  have hreceives : ∀ {i x}, (k.raise y).Receives i x → k.Receives i x := by
    simp [Receives, hsignals]
  by_cases hy : y ∈ k.signals.mask
  · have heq : k.raise y = { k with pending := insert y k.pending, log := .raised y :: k.log } := if_pos hy
    rw [heq] at hreceives ⊢
    refine ⟨h.sane, Finset.insert_subset hy h.pending, fun i hi => h.known i (by simpa using hi),
      fun i x hx => h.blocked i x (hreceives hx),
      fun i j x hi hj => h.unique i j x (hreceives hi) (hreceives hj),
      fun i x hx => ?_, fun i x hx => ?_, ⟨by simp [SignalLog.Justified], h.justified⟩⟩
    · simpa [SignalLog.Handles] using h.spared i x (hreceives hx)
    · have hbefore := h.pending_iff i x (hreceives hx)
      by_cases hxy : x = y
      · simp [hxy]
      · simp [SignalLog.Renews, hxy, Ne.symm hxy, hbefore]
  · have heq : k.raise y = { k with log := .handled {y} :: .raised y :: k.log } := if_neg hy
    rw [heq] at hreceives ⊢
    have hne : ∀ {i x}, k.Receives i x → x ≠ y := fun hx hxy => hy (hxy ▸ h.blocked _ _ hx)
    refine ⟨h.sane, h.pending, fun i hi => h.known i (by simpa using hi),
      fun i x hx => h.blocked i x (hreceives hx),
      fun i j x hi hj => h.unique i j x (hreceives hi) (hreceives hj),
      fun i x hx => ?_, fun i x hx => ?_,
      ⟨by simp [SignalLog.Justified], by simp [SignalLog.Justified], h.justified⟩⟩
    · have hxy := hne (hreceives hx)
      simpa [SignalLog.Handles, hxy] using h.spared i x (hreceives hx)
    · have hxy := hne (hreceives hx)
      simpa [SignalLog.Renews, Ne.symm hxy] using h.pending_iff i x (hreceives hx)

/-- Signals are blocked. -/
lemma Ok.block (h : k.Ok) (set : SigSet) : Ok { k with signals := k.signals.block set } := by
  have hmask : k.signals.mask ⊆ (k.signals.block set).mask := fun x hx =>
    Finset.mem_sdiff.mpr ⟨Finset.mem_union_left _ hx, Finset.disjoint_left.mp h.sane.mask hx⟩
  exact ⟨⟨h.sane.unused, k.signals.block_mask_disjoint set⟩, h.pending.trans hmask, h.known,
    fun i x hx => hmask (h.blocked i x hx), h.unique, h.spared, h.pending_iff, h.justified⟩

/-- An `AsyncSignal` is made. -/
lemma Ok.made (h : k.Ok) (hdisj : Disjoint set k.signals.mask) : Ok { k with
    signals := { k.signals.block set with
      sigset := Function.update k.signals.sigset k.signals.nSignals (some set)
      nSignals := k.signals.nSignals + 1 }
    log := .made k.signals.nSignals :: k.log } := by
  have hb := h.block set
  have hcases : ∀ {i x} {k' : SignalState},
      k'.signals.sigset = Function.update k.signals.sigset k.signals.nSignals (some set) →
        k'.Receives i x → (i = k.signals.nSignals ∧ x ∈ set ∧ x ∉ unblockable) ∨
          i ≠ k.signals.nSignals ∧ k.Receives i x := by
    rintro i x k' hk ⟨hx, set', hset, hmem⟩
    by_cases hi : i = k.signals.nSignals
    · subst hi
      obtain rfl : set = set' := by simpa [hk] using hset
      exact .inl ⟨rfl, hmem, hx⟩
    · exact .inr ⟨hi, hx, set', by simpa [hk, hi] using hset, hmem⟩
  have hnew : ∀ {x}, x ∈ set → x ∉ k.signals.mask := fun hx => Finset.disjoint_left.mp hdisj hx
  have hfresh : .made k.signals.nSignals ∉ k.log := fun hlog => lt_irrefl _ (h.known _ hlog)
  refine ⟨⟨fun i hi => ?_, hb.sane.mask⟩, hb.pending, fun i hi => ?_, fun i x hx => ?_, fun i j x hi hj => ?_,
    fun i x hx => ?_, fun i x hx => ?_, ⟨by simp [SignalLog.Justified], h.justified⟩⟩
  · have hne : i ≠ k.signals.nSignals := (Nat.lt_of_succ_le hi).ne'
    simpa [hne] using h.sane.unused i (Nat.le_of_succ_le hi)
  · rcases List.mem_cons.mp hi with hi | hi
    · rw [SignalLog.made.inj hi]
      exact Nat.lt_succ_self _
    · exact (h.known i hi).trans (Nat.lt_succ_self _)
  · rcases hcases rfl hx with ⟨-, hmem, hx⟩ | ⟨-, hx⟩
    · exact Finset.mem_sdiff.mpr ⟨Finset.mem_union_right _ hmem, hx⟩
    · exact hb.blocked i x hx
  · rcases hcases rfl hi with ⟨rfl, hmem, -⟩ | ⟨-, hi⟩ <;> rcases hcases rfl hj with ⟨rfl, hmem', -⟩ | ⟨-, hj⟩
    · rfl
    · exact absurd (h.blocked j x hj) (hnew hmem)
    · exact absurd (h.blocked i x hi) (hnew hmem')
    · exact h.unique i j x hi hj
  · rcases hcases rfl hx with ⟨rfl, -⟩ | ⟨-, hx⟩
    · -- It has been made only now.
      rw [after_cons]
      rintro (⟨⟨set', hset, -⟩, -⟩ | hafter)
      · simp at hset
      · exact absurd hafter (not_after_of_notMem hfresh)
    · simpa [SignalLog.Handles] using h.spared i x hx
  · rcases hcases rfl hx with ⟨rfl, hmem, -⟩ | ⟨hi, hx⟩
    · refine iff_of_false (fun hp => hnew hmem (h.pending hp)) ?_
      simp [SignalLog.Renews]
    · simpa [SignalLog.Renews, Ne.symm hi] using h.pending_iff i x hx

/-- An `AsyncSignal` is dropped. -/
lemma Ok.drop (h : k.Ok) (hi : k.signals.sigset i = some set) : (k.drop i set).Ok := by
  have hcases : ∀ {j x}, (k.drop i set).Receives j x → k.Receives j x ∧ x ∉ set := by
    rintro j x ⟨hx, set', hset, hmem⟩
    by_cases hj : j = i
    · simp [SignalState.drop, SignalMask.drop, hj] at hset
    · have hx' : k.Receives j x :=
        ⟨hx, set', by simpa [SignalState.drop, SignalMask.drop, SignalMask.unblock, hj] using hset, hmem⟩
      exact ⟨hx', fun hmem' => hj (h.unique j i x hx' ⟨hx, set, hi, hmem'⟩)⟩
  refine ⟨h.sane.step (a := .drop i) (by simp [SignalMask.step, hi, SignalState.drop]), ?_, fun j hj => ?_,
    fun j x hx => ?_, fun j l x hj hl => ?_, fun j x hx => ?_, fun j x hx => ?_,
    ⟨by simp [SignalLog.Justified], h.justified⟩⟩
  · exact Finset.sdiff_subset_sdiff h.pending subset_rfl
  · exact h.known j (by simpa [SignalState.drop] using hj)
  · obtain ⟨hx, hnot⟩ := hcases hx
    exact Finset.mem_sdiff.mpr ⟨h.blocked j x hx, hnot⟩
  · exact h.unique j l x (hcases hj).1 (hcases hl).1
  · obtain ⟨hx, hnot⟩ := hcases hx
    simpa [SignalState.drop, SignalLog.Handles, hnot] using h.spared j x hx
  · obtain ⟨hx, hnot⟩ := hcases hx
    simpa [SignalState.drop, SignalLog.Renews, hnot] using h.pending_iff j x hx

/-- An `AsyncSignal` receives a signal. -/
lemma Ok.take (h : k.Ok) {y : Signal} (hy : y ∈ k.receivable i) : (k.take i y).Ok := by
  have hown := h.receives hy
  refine ⟨h.sane, (Finset.erase_subset _ _).trans h.pending,
    fun j hj => h.known j (by simpa [SignalState.take] using hj), h.blocked, h.unique, fun j x hx => ?_,
    fun j x hx => ?_, ⟨fun j x hx => ?_, h.justified⟩⟩
  · simpa [SignalState.take, SignalLog.Handles] using h.spared j x hx
  · have hbefore := h.pending_iff j x hx
    by_cases hxy : x = y
    · subst hxy
      obtain rfl := h.unique i j x hown hx
      simp [SignalState.take, SignalLog.Renews]
    · simp [SignalState.take, SignalLog.Renews, hxy, Ne.symm hxy, hbefore]
  · obtain ⟨rfl, rfl⟩ := SignalLog.received.inj hx
    exact (h.pending_iff i y hown).mp (mem_receivable.mp hy).1

/-- Every event keeps the signals of an `AsyncSignal` that are pending, unless this is its drop, and a
signal becomes pending by being raised. -/
lemma Ok.apply (h : k.Ok) {e : SignalEvent} (he : e.apply k = some k') : k'.Ok ∧
    (e = .drop i ∨ k.receivable i ⊆ k'.receivable i ∧
      ∀ y ∈ k'.receivable i, y ∈ k.receivable i ∨ e = .raise y ∧ k.Receives i y) := by
  cases e with
  | raise x =>
    obtain rfl := Option.some.inj he
    refine ⟨h.raise x, .inr ?_⟩
    by_cases hx : x ∈ k.signals.mask
    · rw [SignalState.raise, if_pos hx]
      refine ⟨Finset.inter_subset_inter_right (Finset.subset_insert _ _), fun y hy => ?_⟩
      obtain ⟨hp, hset⟩ := mem_receivable.mp hy
      rcases Finset.mem_insert.mp hp with rfl | hp
      · exact .inr ⟨rfl, Finset.disjoint_left.mp h.sane.mask hx, hset⟩
      · exact .inl (mem_receivable.mpr ⟨hp, hset⟩)
    · rw [SignalState.raise, if_neg hx]
      exact ⟨subset_rfl, fun y hy => .inl hy⟩
  | new set o =>
    obtain rfl := Option.some.inj he
    rcases new_cases k set o with ⟨heq, hs⟩ | ⟨hdisj, heq⟩
    · have hset : (k.new set o).signals.sigset = k.signals.sigset := by
        rcases hs with hs | hs <;> rw [heq, hs]
        rfl
      have hrec : (k.new set o).receivable i = k.receivable i := by
        rw [receivable, hset, heq, receivable]
      refine ⟨?_, .inr ⟨hrec ▸ subset_rfl, fun y hy => .inl (hrec ▸ hy)⟩⟩
      rw [heq]
      rcases hs with hs | hs <;> rw [hs]
      · exact h
      · exact h.block set
    · have hok := h.made hdisj
      rw [heq]
      refine ⟨hok, .inr ?_⟩
      by_cases hi : i = k.signals.nSignals
      · -- None of its signals is pending.
        have hbefore : k.receivable i = ∅ := by simp [receivable, hi, h.sane.unused _ le_rfl]
        refine ⟨hbefore ▸ Finset.empty_subset _, fun y hy => ?_⟩
        obtain ⟨hp, set', hset, hy⟩ := mem_receivable.mp hy
        obtain rfl : set = set' := by simpa [hi] using hset
        exact absurd (h.pending hp) (Finset.disjoint_left.mp hdisj hy)
      · have hrec : k.receivable i = k.pending ∩
            ((Function.update k.signals.sigset k.signals.nSignals (some set)) i).getD ∅ := by
          rw [Function.update_of_ne hi, receivable]
        exact ⟨hrec.subset, fun y hy => .inl (hrec ▸ hy)⟩
  | drop j =>
    obtain ⟨set, hset, rfl⟩ := Option.map_eq_some_iff.mp he
    refine ⟨h.drop hset, ?_⟩
    by_cases hj : j = i
    · exact .inl (by rw [hj])
    have hsame : (k.drop j set).signals.sigset i = k.signals.sigset i := by
      simp [SignalState.drop, SignalMask.drop, Ne.symm hj, SignalMask.unblock]
    refine .inr ⟨fun y hy => ?_, fun y hy => .inl ?_⟩
    · have hown := h.receives hy
      obtain ⟨hp, hmem⟩ := mem_receivable.mp hy
      refine mem_receivable.mpr ⟨Finset.mem_sdiff.mpr ⟨hp, fun hyset => hj ?_⟩, hsame.symm ▸ hmem⟩
      exact h.unique j i y ⟨hown.1, set, hset, hyset⟩ hown
    · obtain ⟨hp, hmem⟩ := mem_receivable.mp hy
      exact mem_receivable.mpr ⟨(Finset.mem_sdiff.mp hp).1, hsame ▸ hmem⟩

/-- A signal is received by the one `AsyncSignal` that can receive it. -/
lemma Ok.receivable_take (h : k.Ok) {y : Signal} (hy : y ∈ k.receivable j) :
    (k.take j y).receivable i = if j = i then (k.receivable i).erase y else k.receivable i := by
  have herase : (k.take j y).receivable i = (k.receivable i).erase y := Finset.erase_inter _ _ _
  split_ifs with hj
  · exact herase
  · rw [herase]
    exact Finset.erase_eq_of_notMem fun hyi => hj (h.unique j i y (h.receives hy) (h.receives hyi))

end SignalState

namespace Io

variable {V : Type} {c c' : Io V signals} {f : FdId} {i : ℕ} {x : Signal}

/-! ## Steps -/

/-- What holds of the signals in every reachable state. -/
lemma ok_of_reachable {C : Io V signals → IoAction V signals → Prop} (h : ReachableUnder step IsStart C c) :
    c.kernel.Ok := by
  refine h.invariant (P := fun c => c.kernel.Ok) (fun c h => h.2.1.ok) fun c a c' _ ih _ hs => ?_
  rcases kernel_cases hs with ⟨hk, -⟩ | ⟨e, -, he, -⟩ | ⟨_, j, _, n, y, -, -, -, -, hread, -⟩
  · rwa [hk]
  · exact (ih.apply (i := 0) he).1
  · obtain ⟨hy, hk⟩ := SignalState.read_eq_some hread
    rw [hk]
    exact ih.take hy

/-- What a step does to the signals of an `AsyncSignal` that are pending. -/
lemma reception_cases {a : IoAction V signals} (h : c.step a = some c') (hok : c.kernel.Ok)
    (hown : c.Owns f i) : a = .event (.drop i) ∨
      (c'.results f = c.results f ∧ c.kernel.receivable i ⊆ c'.kernel.receivable i ∧
        ∀ y ∈ c'.kernel.receivable i, y ∈ c.kernel.receivable i ∨
          a = .event (.raise y) ∧ c.kernel.Receives i y) ∨
      ∃ y ∈ c.kernel.receivable i, c'.results f = y :: c.results f ∧
        c'.kernel.receivable i = (c.kernel.receivable i).erase y := by
  rcases kernel_cases h with ⟨hk, hres⟩ | ⟨e, rfl, he, hres⟩ | ⟨g, j, _, n, y, rfl, -, hj, -, hread, hres⟩
  · rw [hk, hres]
    exact .inr (.inl ⟨rfl, subset_rfl, fun y hy => .inl hy⟩)
  · rcases (hok.apply (i := i) he).2 with rfl | ⟨hsub, hraised⟩
    · exact .inl rfl
    · refine .inr (.inl ⟨by rw [hres], hsub, fun y hy => (hraised y hy).imp_right ?_⟩)
      rintro ⟨rfl, hy⟩
      exact ⟨rfl, hy⟩
  · obtain ⟨hy, hk⟩ := SignalState.read_eq_some hread
    have hrec := hok.receivable_take (i := i) hy
    rw [hk, hres]
    by_cases hg : g = f
    · subst hg
      obtain rfl : j = i := (hown g j hj).mpr rfl
      exact .inr (.inr ⟨y, hy, by rw [Function.update_self], by rw [hrec, if_pos rfl]⟩)
    · rw [if_neg fun hji => hg ((hown g j hj).mp hji)] at hrec
      rw [hrec, Function.update_of_ne (Ne.symm hg)]
      exact .inr (.inl ⟨rfl, subset_rfl, fun y hy => .inl hy⟩)

/-- The receipts of an `AsyncSignal` are what the polls of its `Fd` have returned. -/
lemma results_of_reachable (h : ReachableUnder step IsStart (Assigned f i) c) :
    c.results f = c.kernel.log.filterMap (SignalLog.receivedBy i) := by
  induction h with
  | init h => rw [h.2.2.2.2 f, h.2.1.2.2, List.filterMap_nil]
  | @next c c' a hr _ hs ih =>
    have hown := owns_of_reachable hr
    rcases kernel_cases hs with ⟨hk, hres⟩ | ⟨e, rfl, he, hres⟩ | ⟨g, j, _, n, y, rfl, -, hj, -, hread, hres⟩
    · rw [hk, hres, ih]
    · rw [hres, ih]
      cases e with
      | raise x =>
        rw [← Option.some.inj he, SignalState.raise]
        split <;> rfl
      | new set o =>
        rw [← Option.some.inj he]
        rcases SignalState.new_cases c.kernel set o with ⟨heq, -⟩ | ⟨-, heq⟩ <;> rw [heq]
        rfl
      | drop j =>
        obtain ⟨set, -, hk⟩ := Option.map_eq_some_iff.mp he
        rw [← hk]
        rfl
    · rw [(SignalState.read_eq_some hread).2, hres, SignalState.take, List.filterMap_cons]
      by_cases hg : g = f
      · subst hg
        obtain rfl : j = i := (hown g j hj).mpr rfl
        simp [SignalLog.receivedBy, ih]
      · have hji : j ≠ i := fun hji => hg ((hown g j hj).mp hji)
        simp [SignalLog.receivedBy, hji, Ne.symm hg, ih]

section Runs

variable {r : EndlessRun (step (V := V) (D := signals))}

/-- A pending signal of an `AsyncSignal` stays so until it is received or the `AsyncSignal` is dropped. -/
lemma receivable_stays {n : ℕ} (hok : (r.state n).kernel.Ok) (hown : (r.state n).Owns f i)
    (hx : x ∈ (r.state n).kernel.receivable i) : r.action n = .event (.drop i) ∨
      x ∈ (r.state (n + 1)).kernel.receivable i ∨
        (r.state (n + 1)).results f = x :: (r.state n).results f := by
  rcases reception_cases (r.next n) hok hown with hdrop | ⟨-, hsub, -⟩ | ⟨y, -, hres, herase⟩
  · exact .inl hdrop
  · exact .inr (.inl (hsub hx))
  · by_cases hxy : x = y
    · exact .inr (.inr (hxy ▸ hres))
    · exact .inr (.inl (herase ▸ Finset.mem_erase.mpr ⟨hxy, hx⟩))

/-- In a run that is fair to the `Fd` of an `AsyncSignal` as long as a signal of it is pending, and in
which none of its other signals is raised, the pending signal is received, however the kernel chooses
among the pending signals, unless the `AsyncSignal` is dropped first. -/
theorem pending_signal_received (hstart : ReachableUnder step IsStart (Assigned f i) (r.state 0))
    (hassigned : ∀ n, Assigned f i (r.state n) (r.action n)) (hobject : (r.state 0).object f = some i)
    (hfair : Fair r f fun c => x ∈ c.kernel.receivable i)
    (hquiet : ∀ n y, r.action n = .event (.raise y) → (r.state n).kernel.Receives i y → y = x)
    (n : ℕ) (hn : x ∈ (r.state n).kernel.receivable i) :
    ∃ m, n ≤ m ∧ ((r.state (m + 1)).results f = x :: (r.state m).results f ∨
      r.action m = .event (.drop i)) := by
  have hreach := fun n => r.reachableUnder hstart hassigned n
  by_contra hnever
  push Not at hnever
  have hstays : ∀ m, n ≤ m → x ∈ (r.state m).kernel.receivable i := by
    intro m hnm
    induction m, hnm using Nat.le_induction with
    | base => exact hn
    | succ m hnm ih =>
      obtain ⟨hres, hdrop⟩ := hnever m hnm
      exact ((receivable_stays (ok_of_reachable (hreach m)) (owns_of_reachable (hreach m)) ih).resolve_left
        hdrop).resolve_right hres
  -- By induction on the number of signals that can be received.
  suffices hleft : ∀ d m, n ≤ m → ((r.state m).kernel.receivable i).card ≤ d → False from
    hleft _ n le_rfl le_rfl
  intro d
  induction d with
  | zero =>
    intro m hnm hd
    have hpos := Finset.card_pos.mpr ⟨x, hstays m hnm⟩
    omega
  | succ d ih =>
    intro m hnm hd
    by_contra hmore
    have hsame : ∀ j, m ≤ j → (r.state j).results f = (r.state m).results f ∧
        ((r.state j).kernel.receivable i).card ≤ d + 1 := by
      intro j hmj
      induction j, hmj using Nat.le_induction with
      | base => exact ⟨rfl, hd⟩
      | succ j hmj ihj =>
        have hnj := hnm.trans hmj
        obtain ⟨hx, hdrop⟩ := hnever j hnj
        rcases reception_cases (r.next j) (ok_of_reachable (hreach j)) (owns_of_reachable (hreach j)) with
          ha | ⟨hres, -, hraised⟩ | ⟨y, hy, hres, herase⟩
        · exact absurd ha hdrop
        · have hsub : (r.state (j + 1)).kernel.receivable i ⊆ (r.state j).kernel.receivable i := by
            intro y hy
            rcases hraised y hy with hy | ⟨ha, hy⟩
            · exact hy
            · exact hquiet j y ha hy ▸ hstays j hnj
          exact ⟨hres.trans ihj.1, (Finset.card_le_card hsub).trans ihj.2⟩
        · -- Another signal is received, so that fewer are left.
          refine absurd (ih (j + 1) (Nat.le_succ_of_le hnj) ?_) hmore
          rw [herase, Finset.card_erase_of_mem hy]
          exact Nat.sub_le_of_le_add ihj.2
    obtain ⟨j, hmj, hj | hj⟩ := leadsTo_results_of_ready hstart.reachable hobject hfair
      (fun _ hx => decide_eq_true ⟨x, hx⟩) m ⟨hstays m hnm, rfl⟩
    · exact hj (hsame j hmj).1
    · exact hj (hstays j (hnm.trans hmj))

end Runs

/-! ## Two signals -/

/-- A thread at its start, which blocks no signals. -/
def unblocked : Io Unit signals where
  epoll := .start Unit
  kernel := ⟨⟨∅, ∅, fun _ => none, 0⟩, ∅, []⟩
  object _ := none
  request _ := none
  pendings _ := 0
  results _ := []
  waiting _ := none

/-- `unblocked` is a start. -/
lemma isStart_unblocked : IsStart unblocked :=
  ⟨⟨⟨3, 16, by decide, rfl⟩, rfl, rfl, rfl⟩, ⟨⟨by decide, rfl, fun _ => rfl⟩, by decide, rfl⟩, fun _ => rfl,
    fun _ => ⟨rfl, rfl⟩, fun _ => rfl⟩

/-- A task awaits the signals 10 and 12, and both are raised. -/
def raiseBoth : List (IoAction Unit signals) :=
  [.epoll (.thread (.spawn .normal)), .epoll (.thread .run), .epoll (.thread (.go (.ok []))),
    .event (.new {10, 12} ⟨true, true, true, true⟩), .fdNew 0 7 true true, .poll 0 () (.task 0) (.ok []),
    .operate 10, .event (.raise 10), .event (.raise 12)]

/-- It is woken, and receives 12 and then 10. -/
def receiveBoth : List (IoAction Unit signals) :=
  [.epoll (.thread .pending), .epoll (.thread (.go (.ok []))), .epoll (.thread (.go (.ok []))),
    .epoll (.thread (.go (.ok [.fd 0 1]))), .epoll (.thread (.go (.ok []))), .poll 0 () (.task 0) (.ok []),
    .operate 12, .poll 0 () (.task 0) (.ok []), .operate 10]

/-- What is needed of each step of the reception. -/
def Calm (c : Io Unit signals) : IoAction Unit signals → Prop
  | .event _ => False
  | a => Assigned (D := signals) 0 0 c a ∧ c.epoll.thread.panicked = none ∧
    c.epoll.thread.inInterest 0 ∧ c.Tended 0

instance (c : Io Unit signals) : DecidablePred (Calm c)
  | .event _ => inferInstanceAs (Decidable False)
  | .epoll _ | .fdNew .. | .poll .. | .interrupted | .operate _ =>
    inferInstanceAs (Decidable (_ ∧ _))

/-- Signal 10 is received after 12. -/
theorem pending_signal_received_of_two : ∃ (r : EndlessRun (step (V := Unit) (D := signals))) (m : ℕ),
    (r.state 0).kernel.receivable 0 = {10, 12} ∧
      ((r.state (m + 1)).results 0 = 10 :: (r.state m).results 0 ∨ r.action m = .event (.drop 0)) := by
  obtain ⟨c₀, hc₀, h⟩ := ReachableUnder.exists_run step
    (fun (c : Io Unit signals) a => Assigned (D := signals) 0 0 c a) isStart_unblocked raiseBoth
    (P := fun c₀ => (exec step (fun c a => decide (Calm c a)) c₀ receiveBoth).any
      fun c : Io Unit signals => decide ((c₀.kernel.receivable 0 = {10, 12} ∧ c₀.object 0 = some 0) ∧
        c.kernel.receivable 0 = ∅ ∧ c.epoll.thread.panicked = none)) (by decide +kernel)
  obtain ⟨c, hexec, h⟩ := (Option.any_eq_true _ _).mp h
  obtain ⟨⟨hboth, hobject⟩, hnone, hp⟩ := of_decide_eq_true h
  obtain ⟨r, rfl, hcalm, hlater⟩ := exists_resting_run (C := Calm) hexec
  have hsteps : ∀ n, Assigned (D := signals) 0 0 (r.state n) (r.action n) ∧ (∀ e, r.action n ≠ .event e) ∧
      (r.state n).epoll.thread.panicked = none ∧
        (r.state n = c ∨ (r.state n).epoll.thread.inInterest 0 ∧ (r.state n).Tended 0) := fun n => by
    rcases hcalm n with hn | ⟨hn, ha⟩
    · cases ha : r.action n with
      | event e => simp [ha, Calm] at hn
      | _ =>
        rw [ha] at hn
        exact ⟨hn.1, by simp, hn.2.1, .inr hn.2.2⟩
    · rw [ha]
      exact ⟨trivial, by simp, hn ▸ hp, .inl hn⟩
  have hfair : Fair r 0 fun c => 10 ∈ c.kernel.receivable 0 :=
    fair_of_rest hlater (by simp [hnone]) fun n => (hsteps n).2.2
  obtain ⟨m, -, hm⟩ := pending_signal_received hc₀ (fun n => (hsteps n).1) hobject hfair
    (fun n y ha => absurd ha ((hsteps n).2.1 _)) 0 (by simp [hboth])
  exact ⟨r, m, hboth, hm⟩

end Io

end Epox

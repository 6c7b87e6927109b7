import Epox.Fd.Device
import Mathlib.Tactic.Ring

/-!
# Timers

The timers of `timer.rs`: what the kernel knows of them (`TimerFd`, after `timerfd_settime(2)` and `read(2)` on
a timer descriptor), and the conversion of durations to what it is told.  They are a device, so that `tick` may
be polled by any task and any number of times.  The kernel keeps for each timer a history of what it was set to
and of what has been read from it.

The expirations that have been read since a timer was set and those that have not been read are those that have
been due (`TimerState.Ok`).
-/

namespace Epox

/-! ## Durations -/

/-- A second, in nanoseconds. -/
def second : ℕ := 1000000000

/-- `std::time::Duration`. -/
structure Duration where
  secs : BitVec 64
  nanos : ℕ
  nanos_lt : nanos < second
  deriving DecidableEq

namespace Duration

/-- `Duration::ZERO`. -/
def zero : Duration := ⟨0, 0, by decide⟩

/-- The duration in nanoseconds. -/
def length (d : Duration) : ℕ := d.secs.toNat * second + d.nanos

/-- Only the zero duration takes no time. -/
lemma length_eq_zero_iff {d : Duration} : d.length = 0 ↔ d = zero := by
  obtain ⟨secs, nanos, hn⟩ := d
  have hsecond : second ≠ 0 := by decide
  simp only [length, zero, Nat.add_eq_zero_iff, Nat.mul_eq_zero, mk.injEq, hsecond, or_false]
  exact and_congr_left fun _ => ⟨fun h => BitVec.eq_of_toNat_eq h, fun h => h ▸ rfl⟩

end Duration

/-- `struct timespec`. -/
structure TimeSpec where
  tvSec : ℤ
  tvNsec : ℤ
  deriving DecidableEq

namespace TimeSpec

/-- `TimeSpec::from_duration`; the seconds are cast to `time_t`. -/
def ofDuration (d : Duration) : TimeSpec := ⟨d.secs.toInt, d.nanos⟩

/-- A value that `timerfd_settime(2)` accepts. -/
def Valid (t : TimeSpec) : Prop := 0 ≤ t.tvSec ∧ 0 ≤ t.tvNsec ∧ t.tvNsec < second

instance (t : TimeSpec) : Decidable t.Valid :=
  inferInstanceAs (Decidable (0 ≤ t.tvSec ∧ 0 ≤ t.tvNsec ∧ t.tvNsec < second))

/-- The time in nanoseconds. -/
def length (t : TimeSpec) : ℕ := (t.tvSec * second + t.tvNsec).toNat

/-- The conversion keeps the length of a duration, as long as its seconds fit into a `time_t`. -/
lemma length_ofDuration {d : Duration} (h : (ofDuration d).Valid) : (ofDuration d).length = d.length := by
  have hsecs : d.secs.toInt = d.secs.toNat := by
    have := h.1
    simp only [ofDuration, BitVec.toInt_eq_toNat_cond] at this ⊢
    split_ifs at this ⊢ <;> omega
  simp only [length, ofDuration, hsecs, Duration.length]
  omega

end TimeSpec

/-! ## The kernel's timers -/

/-- `enum Expiration` of `nix`. -/
inductive Expiration
  | oneShot (t : TimeSpec)
  | intervalDelayed (start interval : TimeSpec)
  | interval (t : TimeSpec)

/-- `struct itimerspec`. -/
structure TimerSpec where
  itInterval : TimeSpec
  itValue : TimeSpec

/-- `TimerSpec::from(Expiration)`. -/
def TimerSpec.ofExpiration : Expiration → TimerSpec
  | .oneShot t => ⟨⟨0, 0⟩, t⟩
  | .intervalDelayed start interval => ⟨interval, start⟩
  | .interval t => ⟨t, t⟩

/-- What the kernel knows of a timer. -/
structure TimerFd where
  /-- When the timer expires next; `none` while it is disarmed. -/
  next : Option ℕ
  interval : ℕ
  /-- The expirations since it was set or read. -/
  ticks : ℕ
  deriving DecidableEq

namespace TimerFd

/-- `timerfd_create(2)`. -/
def new : TimerFd := ⟨none, 0, 0⟩

/-- `timerfd_settime(2)` for a relative time; `none` for `EINVAL`.  A timer whose initial value is zero is
disarmed. -/
def settime (now : ℕ) (spec : TimerSpec) : Option TimerFd :=
  if spec.itValue.Valid ∧ spec.itInterval.Valid then
    some
      { next := if spec.itValue.length = 0 then none else some (now + spec.itValue.length)
        interval := spec.itInterval.length
        ticks := 0 }
  else
    none

/-- The timer when the time is `now`. -/
def advance (t : TimerFd) (now : ℕ) : TimerFd :=
  match t.next with
  | none => t
  | some e =>
    if now < e then
      t
    else if t.interval = 0 then
      { t with next := none, ticks := t.ticks + 1 }
    else
      let n := (now - e) / t.interval + 1
      { t with next := some (e + n * t.interval), ticks := t.ticks + n }

/-- A disarmed timer does not expire. -/
lemma advance_of_none {t : TimerFd} (h : t.next = none) (now : ℕ) : t.advance now = t := by
  simp [advance, h]

/-- A timer is set for one shot exactly if the seconds fit into a `time_t`, and then it is armed exactly if
the duration is not zero. -/
lemma settime_oneShot {now : ℕ} {d : Duration} {t : TimerFd}
    (h : settime now (.ofExpiration (.oneShot (.ofDuration d))) = some t) :
    t = { next := if d = .zero then none else some (now + d.length), interval := 0, ticks := 0 } := by
  rw [settime, Option.ite_none_right_eq_some] at h
  obtain ⟨hv, h⟩ := h
  obtain rfl := Option.some.inj h
  have hlen : (TimeSpec.ofDuration d).length = d.length := TimeSpec.length_ofDuration hv.1
  simp only [TimerSpec.ofExpiration, hlen, Duration.length_eq_zero_iff]
  rfl

end TimerFd

/-! ## Histories -/

/-- What has happened to a timer. -/
inductive TickLog
  /-- It has been set, at a time. -/
  | set (since : ℕ) (spec : TimerSpec)
  /-- So many expirations have been read. -/
  | read (n : ℕ)

namespace TickLog

/-- What has been read, the latest first. -/
def reads (l : List TickLog) : List ℕ :=
  l.filterMap fun
    | .read n => some n
    | .set _ _ => none

/-- How many expirations have been read since the timer was last set. -/
def readSince : List TickLog → ℕ
  | [] => 0
  | .set _ _ :: _ => 0
  | .read n :: l => n + readSince l

/-- When the timer was last set, and to what. -/
def lastSet : List TickLog → Option (ℕ × TimerSpec)
  | [] => none
  | .set since spec :: _ => some (since, spec)
  | .read _ :: l => lastSet l

end TickLog

/-- How often a timer expires that was set at a time. -/
def TimerSpec.expirations (spec : TimerSpec) (since now : ℕ) : ℕ :=
  let first := since + spec.itValue.length
  if spec.itValue.length = 0 ∨ now < first then
    0
  else if spec.itInterval.length = 0 then
    1
  else
    (now - first) / spec.itInterval.length + 1

namespace TimerFd

/-! ## Time -/

/-- A timer advances by any steps in between. -/
lemma advance_advance (t : TimerFd) {m n : ℕ} (hmn : m ≤ n) : (t.advance m).advance n = t.advance n := by
  cases he : t.next with
  | none => rw [advance_of_none he, advance_of_none he]
  | some e =>
    by_cases hm : m < e
    · have hsame : t.advance m = t := by simp [advance, he, hm]
      rw [hsame]
    have hn : ¬ n < e := fun hlt => hm (hmn.trans_lt hlt)
    by_cases hi : t.interval = 0
    · simp [advance, he, hm, hn, hi]
    · -- The expirations until `n` are those until `m` and those since.
      have hpos := Nat.pos_of_ne_zero hi
      have hfirst : t.advance m = { t with
          next := some (e + ((m - e) / t.interval + 1) * t.interval)
          ticks := t.ticks + ((m - e) / t.interval + 1) } := by
        simp [advance, he, hm, hi]
      have hboth : t.advance n = { t with
          next := some (e + ((n - e) / t.interval + 1) * t.interval)
          ticks := t.ticks + ((n - e) / t.interval + 1) } := by
        simp [advance, he, hn, hi]
      rw [hfirst, hboth]
      by_cases hlt : n < e + ((m - e) / t.interval + 1) * t.interval
      · have hq : (n - e) / t.interval = (m - e) / t.interval := by
          refine le_antisymm ?_ (Nat.div_le_div_right (Nat.sub_le_sub_right hmn e))
          refine Nat.le_of_lt_succ ((Nat.div_lt_iff_lt_mul hpos).mpr ?_)
          exact Nat.sub_lt_left_of_lt_add (not_lt.mp hn) hlt
        simp [advance, hlt, hq]
      · have hq : (n - e) / t.interval =
            (n - (e + ((m - e) / t.interval + 1) * t.interval)) / t.interval + ((m - e) / t.interval + 1) := by
          rw [← Nat.add_mul_div_right _ _ hpos]
          congr 1
          omega
        simp only [advance, hlt, hi, if_false]
        rw [hq]
        simp only [mk.injEq, Option.some.injEq, true_and]
        constructor <;> ring

/-- The expirations that have been read do not matter to those that come. -/
lemma advance_read (t : TimerFd) (k now : ℕ) (hk : k ≤ t.ticks) :
    ({ t with ticks := t.ticks - k } : TimerFd).advance now =
      { t.advance now with ticks := (t.advance now).ticks - k } := by
  cases he : t.next with
  | none => simp [advance, he]
  | some e =>
    by_cases hnow : now < e
    · simp [advance, he, hnow]
    by_cases hi : t.interval = 0
    · simp [advance, he, hnow, hi, Nat.sub_add_comm hk]
    · simp [advance, he, hnow, hi, Nat.sub_add_comm hk]

/-- A timer that is set advances by the expirations that are due. -/
lemma ticks_of_settime {since now : ℕ} {spec : TimerSpec} {t : TimerFd} (h : settime since spec = some t) :
    (t.advance now).ticks = spec.expirations since now := by
  rw [settime, Option.ite_none_right_eq_some] at h
  obtain rfl := Option.some.inj h.2
  unfold TimerSpec.expirations
  by_cases hz : spec.itValue.length = 0
  · simp [advance, hz]
  by_cases hnow : now < since + spec.itValue.length
  · simp [advance, hz, hnow]
  by_cases hi : spec.itInterval.length = 0
  · simp [advance, hz, hnow, hi]
  · simp [advance, hz, hnow, hi]

/-- Expirations are not forgotten. -/
lemma ticks_le (t : TimerFd) (now : ℕ) : t.ticks ≤ (t.advance now).ticks := by
  unfold advance
  split
  · exact le_rfl
  · split_ifs
    · exact le_rfl
    · exact Nat.le_succ _
    · exact Nat.le_add_right ..

end TimerFd

/-! ## The device -/

/-- The time, the timers, and what has happened to them, the latest first. -/
structure TimerState where
  now : ℕ
  timer : ℕ → TimerFd
  log : ℕ → List TickLog

namespace TimerState

/-- Time passes. -/
def elapse (k : TimerState) (dt : ℕ) : TimerState :=
  { k with now := k.now + dt, timer := fun i => (k.timer i).advance (k.now + dt) }

/-- `Timer::set`; `none` if it returns an error. -/
def set (k : TimerState) (i : ℕ) (e : Expiration) : Option TimerState :=
  (TimerFd.settime k.now (.ofExpiration e)).map fun t =>
    { k with
      timer := Function.update k.timer i t
      log := Function.update k.log i (.set k.now (.ofExpiration e) :: k.log i) }

/-- `read(2)` of a timer; `none` for `EAGAIN`. -/
def read (k : TimerState) (i : ℕ) : Option (TimerState × ℕ) :=
  if (k.timer i).ticks = 0 then
    none
  else
    some ({ k with
      timer := Function.update k.timer i { k.timer i with ticks := 0 }
      log := Function.update k.log i (.read (k.timer i).ticks :: k.log i) }, (k.timer i).ticks)

/-- A read of a timer that has expired does not fail with `EAGAIN`. -/
lemma read_ne_none {k : TimerState} {i : ℕ} (h : 0 < (k.timer i).ticks) : k.read i ≠ none := by
  simp [read, h.ne']

end TimerState

/-- What happens to timers outside of `Timer::tick`. -/
inductive TimerEvent
  | elapse (dt : ℕ)
  | set (i : ℕ) (e : Expiration)

/-- What becomes of the timers.  A timer that cannot be set stays as it is. -/
def TimerEvent.apply (k : TimerState) : TimerEvent → Option TimerState
  | .elapse dt => some (k.elapse dt)
  | .set i e => some ((k.set i e).getD k)

/-- Timers that have not been set at first. -/
abbrev timers : Device where
  State := TimerState
  Object := ℕ
  Request := Unit
  Choice := Unit
  Result := ℕ
  Event := TimerEvent
  Fresh k := ∀ i, k.timer i = .new ∧ k.log i = []
  direction _ := .epollIn
  ready k i := decide (0 < (k.timer i).ticks)
  event := TimerEvent.apply
  operate k i _ _ := k.read i
  direction_ne := EpollFlags.epollIn_ne_zero ℕ
  direction_le := EpollFlags.epollIn_and_directions ℕ
  operates _ _ _ _ h := TimerState.read_ne_none (of_decide_eq_true h)

namespace TimerState

variable {k k' : TimerState} {i : ℕ}

/-- What a read does. -/
lemma read_eq_some {n : ℕ} (h : k.read i = some (k', n)) : n = (k.timer i).ticks ∧ 0 < n ∧
    k' = { k with
      timer := Function.update k.timer i { k.timer i with ticks := 0 }
      log := Function.update k.log i (.read n :: k.log i) } := by
  rw [read, Option.ite_none_left_eq_some] at h
  obtain ⟨hne, h⟩ := h
  obtain ⟨rfl, rfl⟩ := Prod.mk.inj (Option.some.inj h)
  exact ⟨rfl, Nat.pos_of_ne_zero hne, rfl⟩

/-- The books of a timer: it is one that was set and has advanced since, without the expirations that have
been read. -/
def Ok (k : TimerState) (i : ℕ) : Prop :=
  match TickLog.lastSet (k.log i) with
  | none => k.timer i = .new
  | some (since, spec) => since ≤ k.now ∧ ∃ t, TimerFd.settime since spec = some t ∧
      TickLog.readSince (k.log i) ≤ (t.advance k.now).ticks ∧
        k.timer i = { t.advance k.now with
          ticks := (t.advance k.now).ticks - TickLog.readSince (k.log i) }

/-- Time passes. -/
lemma Ok.elapse (h : k.Ok i) (dt : ℕ) : (k.elapse dt).Ok i := by
  have hlog : (k.elapse dt).log i = k.log i := rfl
  unfold Ok at h ⊢
  rw [hlog]
  cases hset : TickLog.lastSet (k.log i) with
  | none =>
    simp only [hset] at h
    have hnew : TimerFd.new.advance (k.now + dt) = .new := TimerFd.advance_of_none rfl _
    simp only [TimerState.elapse, h, hnew]
  | some p =>
    simp only [hset] at h
    obtain ⟨hle, t, ht, hread, htimer⟩ := h
    have hadvance := t.advance_advance (Nat.le_add_right k.now dt)
    have hticks := (t.advance k.now).ticks_le (k.now + dt)
    rw [hadvance] at hticks
    refine ⟨Nat.le_add_right_of_le hle, t, ht, hread.trans hticks, ?_⟩
    simp only [TimerState.elapse, htimer]
    rw [TimerFd.advance_read _ _ _ hread, hadvance]

/-- What setting a timer does. -/
lemma set_eq_some {e : Expiration} (h : k.set i e = some k') :
    ∃ t, TimerFd.settime k.now (.ofExpiration e) = some t ∧ k' = { k with
      timer := Function.update k.timer i t
      log := Function.update k.log i (.set k.now (.ofExpiration e) :: k.log i) } := by
  obtain ⟨t, ht, rfl⟩ := Option.map_eq_some_iff.mp h
  exact ⟨t, ht, rfl⟩

/-- A timer is set. -/
lemma Ok.set {j : ℕ} {e : Expiration} (h : k.Ok i) (hset : k.set j e = some k') : k'.Ok i := by
  obtain ⟨t, ht, rfl⟩ := set_eq_some hset
  by_cases hij : i = j
  · subst hij
    have hsame : t.advance k.now = t := by
      rw [TimerFd.settime, Option.ite_none_right_eq_some] at ht
      rw [← Option.some.inj ht.2]
      by_cases hz : (TimerSpec.ofExpiration e).itValue.length = 0
      · simp [TimerFd.advance, hz]
      · have hpos : k.now < k.now + (TimerSpec.ofExpiration e).itValue.length := by omega
        simp [TimerFd.advance, hz, hpos]
    simp only [Ok, Function.update_self, TickLog.lastSet, TickLog.readSince]
    exact ⟨le_rfl, t, ht, Nat.zero_le _, by rw [hsame, Nat.sub_zero]⟩
  · simpa [Ok, hij] using h

/-- A timer is read. -/
lemma Ok.read {j n : ℕ} (h : k.Ok i) (hread : k.read j = some (k', n)) : k'.Ok i := by
  obtain ⟨hn, hpos, rfl⟩ := read_eq_some hread
  by_cases hij : i = j
  · subst hij
    unfold Ok at h ⊢
    simp only [Function.update_self, TickLog.lastSet, TickLog.readSince]
    cases hset : TickLog.lastSet (k.log i) with
    | none =>
      simp only [hset] at h
      simp [hn, h, TimerFd.new] at hpos
    | some p =>
      simp only [hset] at h
      obtain ⟨hle, t, ht, hbound, htimer⟩ := h
      have hticks : n = (t.advance k.now).ticks - TickLog.readSince (k.log i) := by rw [hn, htimer]
      refine ⟨hle, t, ht, by omega, ?_⟩
      rw [htimer]
      simp only [TimerFd.mk.injEq, true_and]
      omega
  · simpa [Ok, hij] using h

/-- The expirations that have been read since a timer was set and those that have not been read are those
that were due. -/
lemma Ok.readSince_add (h : k.Ok i) {since : ℕ} {spec : TimerSpec}
    (hset : TickLog.lastSet (k.log i) = some (since, spec)) :
    TickLog.readSince (k.log i) + (k.timer i).ticks = spec.expirations since k.now := by
  unfold Ok at h
  simp only [hset] at h
  obtain ⟨-, t, ht, hbound, htimer⟩ := h
  rw [htimer, ← TimerFd.ticks_of_settime ht]
  exact Nat.add_sub_of_le hbound

end TimerState

namespace Io

variable {V : Type} {c c' : Io V timers} {f : FdId} {i : ℕ}

/-! ## Steps -/

/-- The books of all timers are right in every reachable state. -/
lemma timersOk_of_reachable {C : Io V timers → IoAction V timers → Prop}
    (h : ReachableUnder step IsStart C c) (i : ℕ) : c.kernel.Ok i := by
  induction h with
  | init h =>
    obtain ⟨htimer, hlog⟩ := h.2.1 i
    simp [TimerState.Ok, hlog, htimer, TickLog.lastSet]
  | next _ _ hs ih =>
    rcases kernel_cases hs with ⟨hk, -⟩ | ⟨e, -, he, -⟩ | ⟨_, j, _, _, n, -, -, -, -, hread, -⟩
    · rwa [hk]
    · cases e with
      | elapse dt => exact Option.some.inj he ▸ ih.elapse dt
      | set j e =>
        rw [← Option.some.inj he]
        cases hset : TimerState.set _ j e with
        | none => exact ih
        | some k' => exact ih.set hset
    · exact ih.read hread

/-- Time does not go back. -/
lemma now_le_of_step {a : IoAction V timers} (h : c.step a = some c') : c.kernel.now ≤ c'.kernel.now := by
  rcases kernel_cases h with ⟨hk, -⟩ | ⟨e, -, he, -⟩ | ⟨_, j, _, _, n, -, -, -, -, hread, -⟩
  · rw [hk]
  · cases e with
    | elapse dt => exact Option.some.inj he ▸ Nat.le_add_right ..
    | set j e =>
      rw [← Option.some.inj he]
      cases hset : c.kernel.set j e with
      | none => exact le_rfl
      | some k' =>
        obtain ⟨t, -, rfl⟩ := TimerState.set_eq_some hset
        exact le_rfl
  · obtain ⟨-, -, hk⟩ := TimerState.read_eq_some hread
    rw [hk]

/-- What a step does to a timer with one `Fd`: the timer is set, or none of its expirations is read, or
all of them are, by the `Fd`. -/
lemma timer_cases {a : IoAction V timers} (h : c.step a = some c') (hown : c.Owns f i) :
    (∃ e, a = .event (.set i e) ∧ c'.results f = c.results f ∧
        TickLog.reads (c'.kernel.log i) = TickLog.reads (c.kernel.log i)) ∨
      (c'.results f = c.results f ∧ c'.kernel.log i = c.kernel.log i ∧
        (c.kernel.timer i).ticks ≤ (c'.kernel.timer i).ticks) ∨
      c'.results f = (c.kernel.timer i).ticks :: c.results f ∧ 0 < (c.kernel.timer i).ticks ∧
        c'.kernel.log i = .read (c.kernel.timer i).ticks :: c.kernel.log i := by
  rcases kernel_cases h with ⟨hk, hres⟩ | ⟨e, rfl, he, hres⟩ | ⟨g, j, _, _, n, -, -, hj, -, hread, hres⟩
  · rw [hk, hres]
    exact .inr (.inl ⟨rfl, rfl, le_rfl⟩)
  · rw [hres]
    cases e with
    | elapse dt =>
      obtain hk := Option.some.inj he
      exact .inr (.inl ⟨rfl, hk ▸ rfl, hk ▸ (c.kernel.timer i).ticks_le _⟩)
    | set j e =>
      rw [← Option.some.inj he]
      cases hset : c.kernel.set j e with
      | none => exact .inr (.inl ⟨rfl, rfl, le_rfl⟩)
      | some k' =>
        obtain ⟨t, -, rfl⟩ := TimerState.set_eq_some hset
        by_cases hji : j = i
        · subst hji
          exact .inl ⟨e, rfl, rfl, by simp [TickLog.reads]⟩
        · exact .inr (.inl ⟨rfl, by simp [Ne.symm hji], by simp [Ne.symm hji]⟩)
  · obtain ⟨rfl, hpos, hk⟩ := TimerState.read_eq_some hread
    rw [hk, hres]
    by_cases hg : g = f
    · subst hg
      obtain rfl : j = i := (hown g j hj).mpr rfl
      exact .inr (.inr ⟨by simp, hpos, by simp⟩)
    · have hji : j ≠ i := fun hji => hg ((hown g j hj).mp hji)
      exact .inr (.inl ⟨by simp [Ne.symm hg], by simp [Ne.symm hji], by simp [Ne.symm hji]⟩)

/-- What has been read from a timer is what the polls of its `Fd` have returned, and never nothing. -/
lemma ticks_of_reachable (h : ReachableUnder step IsStart (Assigned f i) c) :
    c.results f = TickLog.reads (c.kernel.log i) ∧ ∀ n ∈ c.results f, 0 < n := by
  induction h with
  | init h => simp [h.2.2.2.2 f, (h.2.1 i).2, TickLog.reads]
  | next hr _ hs ih =>
    obtain ⟨hreads, hpos⟩ := ih
    rcases timer_cases hs (owns_of_reachable hr) with ⟨e, -, hres, hlog⟩ | ⟨hres, hlog, -⟩ | ⟨hres, hn, hlog⟩
    · exact ⟨by rw [hres, hlog, hreads], hres ▸ hpos⟩
    · exact ⟨by rw [hres, hlog, hreads], hres ▸ hpos⟩
    · rw [hres, hlog]
      refine ⟨by simp [hreads, TickLog.reads], fun n hmem => ?_⟩
      rcases List.mem_cons.mp hmem with rfl | hmem
      · exact hn
      · exact hpos n hmem

/-! ## Timers at their start -/

/-- A thread at its start, and timers that have not been set. -/
def unset : Io Unit timers where
  epoll := .start Unit
  kernel := ⟨0, fun _ => .new, fun _ => []⟩
  object _ := none
  request _ := none
  pendings _ := 0
  results _ := []
  waiting _ := none

/-- `unset` is a start. -/
lemma isStart_unset : IsStart unset :=
  ⟨⟨⟨3, 16, by decide, rfl⟩, rfl, rfl, rfl⟩, fun _ => ⟨rfl, rfl⟩, fun _ => rfl,
    fun _ => ⟨rfl, rfl⟩, fun _ => rfl⟩

end Io

end Epox

import Epox.Fd.Device

/-!
# Streams of bytes

`AsyncReadFd` and `AsyncWriteFd` on connected stream sockets.  A `Stream` is one direction of a connection, as
the kernel keeps it: all bytes that have been sent, how many of them have been taken, and which ends have been
shut down; connections that are reset are left out.  A `write(2)` sends at least one byte unless the stream is
full, and a `read(2)` takes at least one unless it is empty; how many they transfer beyond that is up to the
kernel.  A sender is told that it may write once `lowWater` bytes are free.

`streams` is the device of the two ends.  What a sole reader has received are the first bytes that were sent
(`received_of_reachable`); what has been sent, a reader that keeps reading receives (`leadsTo_taken`).
-/

namespace Epox

/-- `u8`. -/
abbrev Byte := BitVec 8

/-- One direction of a connection between stream sockets. -/
structure Stream where
  /-- All bytes that have been sent. -/
  sent : List Byte
  /-- How many of them have been taken out. -/
  taken : ℕ
  capacity : ℕ
  /-- How much has to be free for the sender to be ready. -/
  lowWater : ℕ
  /-- The sending end has not been shut down. -/
  sending : Bool
  /-- The receiving end has not been shut down. -/
  receiving : Bool
  taken_le : taken ≤ sent.length
  fits : sent.length ≤ taken + capacity
  lowWater_pos : 0 < lowWater
  lowWater_le : lowWater ≤ capacity

/-- What `read(2)` and `write(2)` return on a stream, but for `EINTR` and `EAGAIN`. -/
inductive StreamResult
  /-- `Ok(n)`, with the `n` bytes that have been read into the buffer or written from it. -/
  | transferred (bytes : List Byte)
  /-- `EPIPE`. -/
  | brokenPipe
  deriving DecidableEq

/-- The bytes that have been read or written. -/
def StreamResult.bytes : StreamResult → List Byte
  | .transferred bytes => bytes
  | .brokenPipe => []

/-- The bytes that a sequence of calls has read or written; the latest call comes first. -/
def bytesOf (l : List StreamResult) : List Byte := l.reverse.flatMap StreamResult.bytes

@[simp] lemma bytesOf_nil : bytesOf [] = [] := rfl

@[simp] lemma bytesOf_cons (res : StreamResult) (l : List StreamResult) :
    bytesOf (res :: l) = bytesOf l ++ res.bytes := by
  simp [bytesOf]

namespace Stream

variable (s : Stream)

/-- How many bytes wait for the receiver. -/
def buffered : ℕ := s.sent.length - s.taken

/-- How many more bytes fit. -/
def free : ℕ := s.capacity - s.buffered

/-- No end has been shut down. -/
def isOpen : Bool := s.sending && s.receiving

/-- The receiver is ready: there are bytes, or no more to come. -/
def readable : Bool := decide (0 < s.buffered) || !s.isOpen

/-- The sender is ready: there is room, or no use for it. -/
def writable : Bool := decide (s.lowWater ≤ s.free) || !s.isOpen

/-- When the receiver is ready. -/
lemma readable_iff : s.readable = true ↔ 0 < s.buffered ∨ s.isOpen = false := by
  simp [readable]

/-- When the sender is ready. -/
lemma writable_iff : s.writable = true ↔ s.lowWater ≤ s.free ∨ s.isOpen = false := by
  simp [writable]

/-- How many bytes the kernel transfers if it may transfer at most `limit`, and chooses `n`. -/
def count (limit n : ℕ) : ℕ := min (max n 1) limit

/-- The receiver is not given more than there is. -/
lemma taken_add_count_le (len n : ℕ) : s.taken + count (min len s.buffered) n ≤ s.sent.length := by
  have := s.taken_le
  simp only [count, buffered]
  omega

/-- The sender does not send more than fits. -/
lemma length_add_count_le (buf : List Byte) (n : ℕ) :
    s.sent.length + count (min buf.length s.free) n ≤ s.taken + s.capacity := by
  have := s.fits
  have := s.taken_le
  simp only [count, free, buffered]
  omega

/-- `read(2)` into a buffer of this length; `none` for `EAGAIN`. -/
def read (len n : ℕ) : Option (Stream × StreamResult) :=
  let m := count (min len s.buffered) n
  if 0 < m then
    some ({ s with
      taken := s.taken + m
      taken_le := s.taken_add_count_le len n
      fits := by
        have := s.fits
        omega },
      .transferred ((s.sent.drop s.taken).take m))
  else if len = 0 ∨ s.isOpen = false then
    some (s, .transferred [])
  else
    none

/-- `write(2)`; `none` for `EAGAIN`. -/
def write (buf : List Byte) (n : ℕ) : Option (Stream × StreamResult) :=
  let m := count (min buf.length s.free) n
  if s.isOpen = false then
    some (s, .brokenPipe)
  else if 0 < m ∨ buf = [] then
    some ({ s with
      sent := s.sent ++ buf.take m
      taken_le := s.taken_le.trans (by simp)
      fits := by
        have := s.length_add_count_le buf n
        rw [List.length_append, List.length_take]
        omega },
      .transferred (buf.take m))
  else
    none

/-- `shutdown(2)` of the sending end.  A close does the same if nothing is left unread in the other direction;
otherwise the kernel resets the connection (`ECONNRESET`), which is not modelled. -/
def shutdown : Stream := { s with sending := false }

/-- `shutdown(2)` of the receiving end of a local socket. -/
def hangup : Stream := { s with receiving := false }

/-- A read of a stream that is readable does not fail with `EAGAIN`. -/
lemma read_ne_none {len n : ℕ} (h : s.readable = true) : s.read len n ≠ none := by
  rw [readable_iff] at h
  unfold read
  dsimp only
  split_ifs with hm hor
  · simp
  · simp
  · push Not at hor
    refine absurd h (not_or.mpr ⟨fun hb => hm ?_, hor.2⟩)
    have := hor.1
    simp only [count]
    omega

/-- A write to a stream that is writable does not fail with `EAGAIN`. -/
lemma write_ne_none {buf : List Byte} {n : ℕ} (h : s.writable = true) : s.write buf n ≠ none := by
  rw [writable_iff] at h
  unfold write
  dsimp only
  split_ifs with hopen hm
  · simp
  · simp
  · push Not at hm
    have hpos := s.lowWater_pos
    have hlen := List.length_pos_iff.mpr hm.2
    refine absurd h (not_or.mpr ⟨fun hfree => ?_, hopen⟩)
    simp only [count] at hm
    omega

end Stream

/-! ## What the system calls do -/

namespace Stream

variable {s s' : Stream}

/-- A read that does not fail with `EAGAIN`. -/
lemma read_cases {len n : ℕ} {res : StreamResult} (h : s.read len n = some (s', res)) :
    (∃ m, 0 < m ∧ m ≤ len ∧ s'.taken = s.taken + m ∧ s'.sent = s.sent ∧ s'.isOpen = s.isOpen ∧
        s'.capacity = s.capacity ∧ s'.lowWater = s.lowWater ∧
          res = .transferred ((s.sent.drop s.taken).take m)) ∨
      s' = s ∧ res = .transferred [] ∧ (len = 0 ∨ s.isOpen = false ∧ s.buffered = 0) := by
  unfold read at h
  dsimp only at h
  split_ifs at h with hm hor
  · obtain ⟨rfl, rfl⟩ := Prod.mk.inj (Option.some.inj h)
    refine .inl ⟨_, hm, ?_, rfl, rfl, rfl, rfl, rfl, rfl⟩
    simp only [count]
    omega
  · obtain ⟨rfl, rfl⟩ := Prod.mk.inj (Option.some.inj h)
    refine .inr ⟨rfl, rfl, ?_⟩
    by_cases hlen : len = 0
    · exact .inl hlen
    · refine .inr ⟨hor.resolve_left hlen, ?_⟩
      simp only [count] at hm
      omega

/-- A write that does not fail with `EAGAIN`. -/
lemma write_cases {buf : List Byte} {n : ℕ} {res : StreamResult} (h : s.write buf n = some (s', res)) :
    (∃ m, (buf ≠ [] → 0 < m ∧ m ≤ buf.length) ∧ s'.taken = s.taken ∧ s'.sent = s.sent ++ buf.take m ∧
        s.isOpen = true ∧ s'.isOpen = true ∧ s'.capacity = s.capacity ∧ s'.lowWater = s.lowWater ∧
          res = .transferred (buf.take m)) ∨
      s' = s ∧ res = .brokenPipe ∧ s.isOpen = false := by
  unfold write at h
  dsimp only at h
  split_ifs at h with hopen hm
  · obtain ⟨rfl, rfl⟩ := Prod.mk.inj (Option.some.inj h)
    exact .inr ⟨rfl, rfl, hopen⟩
  · obtain ⟨rfl, rfl⟩ := Prod.mk.inj (Option.some.inj h)
    have hopen' : s.isOpen = true := by simpa using hopen
    refine .inl ⟨_, fun hbuf => ⟨hm.resolve_right hbuf, ?_⟩, rfl, rfl, hopen', hopen', rfl, rfl, rfl⟩
    simp only [count]
    omega

/-- What happens to a stream while nobody takes bytes out. -/
structure Grows (s s' : Stream) : Prop where
  taken : s'.taken = s.taken
  sent : s.sent <+: s'.sent
  closed : s.isOpen = false → s'.isOpen = false ∧ s'.sent = s.sent
  capacity : s'.capacity = s.capacity
  lowWater : s'.lowWater = s.lowWater

/-- What happens to a stream while nobody puts bytes in. -/
structure Drains (s s' : Stream) : Prop where
  taken : s.taken ≤ s'.taken
  sent : s'.sent = s.sent
  closed : s.isOpen = false → s'.isOpen = false
  capacity : s'.capacity = s.capacity
  lowWater : s'.lowWater = s.lowWater

/-- Nothing happens. -/
lemma Grows.refl (s : Stream) : s.Grows s := ⟨rfl, List.prefix_refl _, fun h => ⟨h, rfl⟩, rfl, rfl⟩

/-- Nothing happens. -/
lemma Drains.refl (s : Stream) : s.Drains s := ⟨le_rfl, rfl, id, rfl, rfl⟩

/-- A write takes nothing out. -/
lemma grows_of_write {buf : List Byte} {n : ℕ} {res : StreamResult}
    (h : s.write buf n = some (s', res)) : s.Grows s' := by
  rcases write_cases h with ⟨m, -, htaken, hsent, hopen, -, hcap, hlow, -⟩ | ⟨rfl, -, -⟩
  · exact ⟨htaken, hsent ▸ List.prefix_append .., fun hc => by simp [hopen] at hc, hcap, hlow⟩
  · exact .refl _

/-- A read puts nothing in. -/
lemma drains_of_read {len n : ℕ} {res : StreamResult} (h : s.read len n = some (s', res)) :
    s.Drains s' := by
  rcases read_cases h with ⟨m, -, -, htaken, hsent, hopen, hcap, hlow, -⟩ | ⟨rfl, -, -⟩
  · exact ⟨htaken ▸ Nat.le_add_right .., hsent, fun hc => hopen.trans hc, hcap, hlow⟩
  · exact .refl _

/-- A shutdown of the sending end. -/
lemma shutdown_spec (s : Stream) : s.Grows s.shutdown ∧ s.Drains s.shutdown :=
  ⟨⟨rfl, List.prefix_refl _, fun _ => ⟨by simp [shutdown, isOpen], rfl⟩, rfl, rfl⟩,
    ⟨le_rfl, rfl, fun _ => by simp [shutdown, isOpen], rfl, rfl⟩⟩

/-- A shutdown of the receiving end. -/
lemma hangup_spec (s : Stream) : s.Grows s.hangup ∧ s.Drains s.hangup :=
  ⟨⟨rfl, List.prefix_refl _, fun _ => ⟨by simp [hangup, isOpen], rfl⟩, rfl, rfl⟩,
    ⟨le_rfl, rfl, fun _ => by simp [hangup, isOpen], rfl, rfl⟩⟩

end Stream

/-! ## The device -/

/-- An end of a stream. -/
inductive Endpoint
  | sender (i : ℕ)
  | receiver (i : ℕ)
  deriving DecidableEq

namespace Endpoint

/-- The stream of which it is an end. -/
def stream : Endpoint → ℕ
  | .sender i | .receiver i => i

/-- `AsyncWriteFd::new` registers its descriptor for writing, and `AsyncReadFd::new` for reading. -/
def direction : Endpoint → EpollFlags
  | .sender _ => .epollOut
  | .receiver _ => .epollIn

/-- The end is ready. -/
def ready (k : ℕ → Stream) : Endpoint → Bool
  | .sender i => (k i).writable
  | .receiver i => (k i).readable

/-- The system calls of `AsyncWriteFd::poll_write` and `AsyncReadFd::poll_read`; `buf` is the buffer of the
caller. -/
def call (s : Stream) (buf : List Byte) (n : ℕ) : Endpoint → Option (Stream × StreamResult)
  | .sender _ => s.write buf n
  | .receiver _ => s.read buf.length n

/-- A system call on one of the streams. -/
def operate (k : ℕ → Stream) (x : Endpoint) (buf : List Byte) (n : ℕ) :
    Option ((ℕ → Stream) × StreamResult) :=
  (x.call (k x.stream) buf n).map fun r => (Function.update k x.stream r.1, r.2)

/-- A system call on a stream changes this stream only. -/
lemma operate_eq_some {k k' : ℕ → Stream} {x : Endpoint} {buf : List Byte} {n : ℕ} {res : StreamResult}
    (h : x.operate k buf n = some (k', res)) :
    x.call (k x.stream) buf n = some (k' x.stream, res) ∧ ∀ i, i ≠ x.stream → k' i = k i := by
  obtain ⟨r, hr, heq⟩ := Option.map_eq_some_iff.mp h
  obtain ⟨rfl, rfl⟩ := Prod.mk.inj heq
  exact ⟨by simp [hr], fun j hj => Function.update_of_ne hj ..⟩

/-- An end is registered for one direction. -/
lemma direction_spec (x : Endpoint) :
    x.direction ≠ 0 ∧ x.direction &&& (.epollIn ||| .epollOut) = x.direction := by
  cases x with
  | sender i => exact EpollFlags.epollOut_spec
  | receiver i => exact EpollFlags.epollIn_spec

/-- A system call on an end that is ready does not fail with `EAGAIN`. -/
lemma operate_ne_none {k : ℕ → Stream} (x : Endpoint) (buf : List Byte) (n : ℕ) (h : x.ready k = true) :
    x.operate k buf n ≠ none := by
  cases x with
  | sender i => simpa [operate, call, stream] using (k i).write_ne_none h
  | receiver i => simpa [operate, call, stream] using (k i).read_ne_none h

/-- Of the two ends of a stream one sends and the other receives. -/
lemma eq_receiver_of_ne {x : Endpoint} {i : ℕ} (h : x.stream = i) (hx : x ≠ .sender i) : x = .receiver i := by
  cases x with
  | sender j => exact absurd (congrArg Endpoint.sender h) hx
  | receiver j => exact congrArg Endpoint.receiver h

/-- Of the two ends of a stream one receives and the other sends. -/
lemma eq_sender_of_ne {x : Endpoint} {i : ℕ} (h : x.stream = i) (hx : x ≠ .receiver i) : x = .sender i := by
  cases x with
  | sender j => exact congrArg Endpoint.sender h
  | receiver j => exact absurd (congrArg Endpoint.receiver h) hx

end Endpoint

/-- What the other process at a connection does, or the owner of an end. -/
inductive StreamEvent
  | operate (x : Endpoint) (buf : List Byte) (n : ℕ)
  | shutdown (i : ℕ)
  | hangup (i : ℕ)

/-- What becomes of the streams. -/
def StreamEvent.apply (k : ℕ → Stream) : StreamEvent → Option (ℕ → Stream)
  | .operate x buf n => (x.operate k buf n).map Prod.fst
  | .shutdown i => some (Function.update k i (k i).shutdown)
  | .hangup i => some (Function.update k i (k i).hangup)

/-- The ends of streams that are empty at first. -/
abbrev streams : Device where
  State := ℕ → Stream
  Object := Endpoint
  Request := List Byte
  Choice := ℕ
  Result := StreamResult
  Event := StreamEvent
  Fresh k := ∀ i, (k i).sent = []
  direction := Endpoint.direction
  ready := Endpoint.ready
  event := StreamEvent.apply
  operate := Endpoint.operate
  direction_ne x := x.direction_spec.1
  direction_le x := x.direction_spec.2
  operates _ x buf n h := x.operate_ne_none buf n h

namespace Io

variable {V : Type} {c c' : Io V streams} {f g : FdId} {x : Endpoint} {i : ℕ}

/-! ## The sole user of an end -/

/-- Nobody else operates on the end of the stream. -/
def Spared (x : Endpoint) : IoAction V streams → Prop
  | .event (.operate y _ _) => y ≠ x
  | _ => True

instance (x : Endpoint) (a : IoAction V streams) : Decidable (Spared x a) := by
  unfold Spared
  split <;> infer_instance

/-- Only the `Fd` operates on the end of the stream, and it does so on no other one. -/
def Sole (f : FdId) (x : Endpoint) (c : Io V streams) (a : IoAction V streams) : Prop :=
  Assigned f x c a ∧ Spared x a

instance (f : FdId) (x : Endpoint) (c : Io V streams) (a : IoAction V streams) : Decidable (Sole f x c a) :=
  inferInstanceAs (Decidable (_ ∧ _))

/-- The sole user of an end is the only `Fd` for it. -/
lemma owns_of_sole (h : ReachableUnder step IsStart (Sole f x) c) : c.Owns f x :=
  owns_of_reachable (h.mono fun _ _ h => h.1)

/-- The stream of an end with a sole user is used at the other end, or shut down. -/
inductive Beside (x : Endpoint) (s : Stream) : Stream → Prop
  | refl : Beside x s s
  | call {y : Endpoint} {s' : Stream} {buf : List Byte} {n : ℕ} {res : StreamResult} (hy : y ≠ x)
      (hi : y.stream = x.stream) (h : y.call s buf n = some (s', res)) : Beside x s s'
  | shutdown : Beside x s s.shutdown
  | hangup : Beside x s s.hangup

/-- What a step does to the stream of an end with a sole user: it leaves the end alone, or it is a system
call of the user. -/
lemma sole_cases {a : IoAction V streams} (h : c.step a = some c') (hC : Sole f x c a)
    (hown : c.Owns f x) :
    (Beside x (c.kernel x.stream) (c'.kernel x.stream) ∧ c'.results f = c.results f) ∨
      ∃ buf n res, c.request f = some buf ∧
        x.call (c.kernel x.stream) buf n = some (c'.kernel x.stream, res) ∧
          c'.results f = res :: c.results f := by
  have hbeside : ∀ {k : ℕ → Stream} {y : Endpoint} {buf : List Byte} {n : ℕ} {res : StreamResult}, y ≠ x →
      y.operate c.kernel buf n = some (k, res) → Beside x (c.kernel x.stream) (k x.stream) := by
    intro k y buf n res hne hop
    obtain ⟨hcall, hother⟩ := Endpoint.operate_eq_some hop
    by_cases hi : y.stream = x.stream
    · exact .call hne hi (hi ▸ hcall)
    · rw [hother _ (Ne.symm hi)]
      exact .refl
  rcases kernel_cases h with
      ⟨hk, hres⟩ | ⟨e, rfl, he, hres⟩ | ⟨g, y, buf, n, res, rfl, -, hy, hbuf, hop, hres⟩
  · rw [hk, hres]
    exact .inl ⟨.refl, rfl⟩
  · refine .inl ⟨?_, by rw [hres]⟩
    cases e with
    | operate y buf n =>
      obtain ⟨⟨k, res⟩, hop, hk⟩ := Option.map_eq_some_iff.mp he
      obtain rfl : k = c'.kernel := hk
      exact hbeside hC.2 hop
    | shutdown j =>
      rw [← Option.some.inj he]
      by_cases hj : x.stream = j
      · rw [hj, Function.update_self]
        exact .shutdown
      · rw [Function.update_of_ne hj]
        exact .refl
    | hangup j =>
      rw [← Option.some.inj he]
      by_cases hj : x.stream = j
      · rw [hj, Function.update_self]
        exact .hangup
      · rw [Function.update_of_ne hj]
        exact .refl
  · by_cases hg : g = f
    · subst hg
      obtain rfl : y = x := (hown g y hy).mpr rfl
      exact .inr ⟨buf, n, res, hbuf, (Endpoint.operate_eq_some hop).1, by rw [hres, Function.update_self]⟩
    · refine .inl ⟨hbeside (fun hyx => hg ((hown g y hy).mp hyx)) hop, ?_⟩
      rw [hres, Function.update_of_ne (Ne.symm hg)]

/-- Beside a sole receiver, nothing is taken out of a stream. -/
lemma Beside.grows {s s' : Stream} (h : Beside (.receiver i) s s') : s.Grows s' := by
  cases h with
  | refl => exact .refl s
  | call hy hi h =>
    obtain rfl := Endpoint.eq_sender_of_ne hi hy
    exact Stream.grows_of_write h
  | shutdown => exact s.shutdown_spec.1
  | hangup => exact s.hangup_spec.1

/-- Beside a sole sender, nothing is put into a stream. -/
lemma Beside.drains {s s' : Stream} (h : Beside (.sender i) s s') : s.Drains s' := by
  cases h with
  | refl => exact .refl s
  | call hy hi h =>
    obtain rfl := Endpoint.eq_receiver_of_ne hi hy
    exact Stream.drains_of_read h
  | shutdown => exact s.shutdown_spec.2
  | hangup => exact s.hangup_spec.2

/-- What a step does to a stream with a sole receiver: it takes nothing out, or it is a `read(2)` of the
receiver. -/
lemma receiver_cases {a : IoAction V streams} (h : c.step a = some c') (hC : Sole f (.receiver i) c a)
    (hown : c.Owns f (.receiver i)) :
    ((c.kernel i).Grows (c'.kernel i) ∧ c'.results f = c.results f) ∨
      ∃ buf n res, c.request f = some buf ∧ (c.kernel i).read buf.length n = some (c'.kernel i, res) ∧
        c'.results f = res :: c.results f :=
  (sole_cases h hC hown).imp_left fun ⟨hbeside, hres⟩ => ⟨hbeside.grows, hres⟩

/-- What a step does to a stream with a sole sender: it puts nothing in, or it is a `write(2)` of the
sender. -/
lemma sender_cases {a : IoAction V streams} (h : c.step a = some c') (hC : Sole g (.sender i) c a)
    (hown : c.Owns g (.sender i)) :
    ((c.kernel i).Drains (c'.kernel i) ∧ c'.results g = c.results g) ∨
      ∃ buf n res, c.request g = some buf ∧ (c.kernel i).write buf n = some (c'.kernel i, res) ∧
        c'.results g = res :: c.results g :=
  (sole_cases h hC hown).imp_left fun ⟨hbeside, hres⟩ => ⟨hbeside.drains, hres⟩

/-! ## What is received is what was sent -/

/-- What a sole receiver has received are the first bytes that were sent. -/
lemma received_of_reachable (h : ReachableUnder step IsStart (Sole f (.receiver i)) c) :
    bytesOf (c.results f) = (c.kernel i).sent.take (c.kernel i).taken := by
  induction h with
  | init h => simp [h.2.1 i, h.2.2.2.2 f]
  | @next c c' a hr hC hs ih =>
    rcases receiver_cases hs hC (owns_of_sole hr) with ⟨hgrows, hres⟩ | ⟨buf, n, res, -, hread, hres⟩
    · obtain ⟨t, ht⟩ := hgrows.sent
      rw [hres, ih, hgrows.taken, ← ht, List.take_append_of_le_length (c.kernel i).taken_le]
    · rw [hres, bytesOf_cons, ih]
      rcases Stream.read_cases hread with ⟨m, -, -, htaken, hsent, -, -, -, rfl⟩ | ⟨heq, rfl, -⟩
      · rw [htaken, hsent, List.take_add]
        rfl
      · rw [heq]
        exact List.append_nil _

/-- What a sole sender has sent is all that was sent. -/
lemma sent_of_reachable (h : ReachableUnder step IsStart (Sole g (.sender i)) c) :
    bytesOf (c.results g) = (c.kernel i).sent := by
  induction h with
  | init h => simp [h.2.1 i, h.2.2.2.2 g]
  | @next c c' a hr hC hs ih =>
    rcases sender_cases hs hC (owns_of_sole hr) with ⟨hdrains, hres⟩ | ⟨buf, n, res, -, hwrite, hres⟩
    · rw [hres, ih, hdrains.sent]
    · rw [hres, bytesOf_cons, ih]
      rcases Stream.write_cases hwrite with ⟨m, -, -, hsent, -, -, -, -, rfl⟩ | ⟨heq, rfl, -⟩
      · exact hsent.symm
      · rw [heq]
        exact List.append_nil _

/-- The `Fd` is polled with buffers that are not empty. -/
def Filled (f : FdId) : IoAction V streams → Prop
  | .poll g buf _ _ => g = f → buf ≠ []
  | _ => True

instance (f : FdId) (a : IoAction V streams) : Decidable (Filled f a) := by
  unfold Filled
  split <;> infer_instance

/-- The `Fd` is the sole user of the end, with buffers that are not empty. -/
def Uses (f : FdId) (x : Endpoint) (c : Io V streams) (a : IoAction V streams) : Prop :=
  Sole f x c a ∧ Filled f a

instance (f : FdId) (x : Endpoint) (c : Io V streams) (a : IoAction V streams) : Decidable (Uses f x c a) :=
  inferInstanceAs (Decidable (_ ∧ _))

/-- The buffer of a poll in progress is not empty. -/
lemma request_ne_nil (h : ReachableUnder step IsStart (Uses f x) c) {buf : List Byte}
    (hbuf : c.request f = some buf) : buf ≠ [] := by
  induction h with
  | init h => simp [h.2.2.2.1] at hbuf
  | next _ hC hs ih =>
    rcases request_of_step hs hbuf with hbefore | ⟨cx, k, rfl⟩
    · exact ih hbefore
    · exact hC.2 rfl

/-- The latest poll of the `Fd` has reported the end of the stream. -/
def AtEnd (c : Io V streams) (f : FdId) : Prop := ∃ l, c.results f = .transferred [] :: l

/-- When a sole receiver has been told that the stream has ended, nothing is left in it and nothing will
come. -/
lemma ended_of_reachable (h : ReachableUnder step IsStart (Uses f (.receiver i)) c) (hend : c.AtEnd f) :
    (c.kernel i).isOpen = false ∧ (c.kernel i).taken = (c.kernel i).sent.length := by
  induction h with
  | init h =>
    obtain ⟨l, hl⟩ := hend
    simp [h.2.2.2.2 f] at hl
  | @next c c' a hr hC hs ih =>
    obtain ⟨l, hl⟩ := hend
    have hown := owns_of_sole (hr.mono fun _ _ h => h.1)
    rcases receiver_cases hs hC.1 hown with ⟨hgrows, hres⟩ | ⟨buf, n, res, hbuf, hread, hres⟩
    · obtain ⟨hopen, htaken⟩ := ih ⟨l, hres.symm.trans hl⟩
      obtain ⟨hopen', hsent⟩ := hgrows.closed hopen
      exact ⟨hopen', by rw [hgrows.taken, hsent, htaken]⟩
    · obtain ⟨rfl, -⟩ := List.cons.inj (hres.symm.trans hl)
      have hlen := List.length_pos_iff.mpr (request_ne_nil hr hbuf)
      rcases Stream.read_cases hread with ⟨m, hm, -, htaken, hsent, -, -, -, hbytes⟩ | ⟨heq, -, hzero⟩
      · -- A read that takes bytes does not report the end.
        have hnil := congrArg List.length (StreamResult.transferred.inj hbytes)
        have hle := (c'.kernel i).taken_le
        rw [htaken, hsent] at hle
        simp only [List.length_nil, List.length_take, List.length_drop] at hnil
        omega
      · obtain ⟨hopen, hb⟩ := hzero.resolve_left hlen.ne'
        have hle := (c.kernel i).taken_le
        simp only [Stream.buffered] at hb
        rw [heq]
        exact ⟨hopen, by omega⟩

/-! ## Streams in endless runs -/

/-- The run is fair to the `Fd`, which is the sole user of an end of a stream. -/
structure User (r : EndlessRun (step (V := V) (D := streams))) (f : FdId) (x : Endpoint)
    (A : Io V streams → Prop) : Prop where
  start : ReachableUnder step IsStart (Uses f x) (r.state 0)
  uses : ∀ n, Uses f x (r.state n) (r.action n)
  object : (r.state 0).object f = some x
  fair : Fair r f A

section Runs

variable {r : EndlessRun (step (V := V) (D := streams))} {A B R : Io V streams → Prop}
  {l : List StreamResult}

/-- Every state of the run is reached like the first one. -/
lemma User.reachable (h : User r f x A) (n : ℕ) : ReachableUnder step IsStart (Uses f x) (r.state n) :=
  r.reachableUnder h.start h.uses n

/-- The `Fd` is the only one for its end. -/
lemma User.owns (h : User r f x A) (n : ℕ) : (r.state n).Owns f x :=
  owns_of_sole ((h.reachable n).mono fun _ _ h => h.1)

/-- The `Fd` is for its end all the time. -/
lemma User.attached (h : User r f x A) (n : ℕ) : (r.state n).Attached f x :=
  attached_of_run (attached_of_reachable h.start h.object) n

/-- An end that is ready stays so until its sole user has used it. -/
lemma User.possible_stays (h : User r f x A) :
    r.Unless (fun c => c.Possible f x A l) fun c => c.results f ≠ l ∨ ¬ A c := by
  intro n hn
  by_cases hA : A (r.state (n + 1))
  swap
  · exact .inr (.inr hA)
  have hready := hn.ready
  have hpossible : Endpoint.ready (r.state (n + 1)).kernel x = true →
      (r.state (n + 1)).results f = (r.state n).results f → (r.state (n + 1)).Possible f x A l :=
    fun hr hres => ⟨hA, h.attached (n + 1), hr, hres.trans hn.results⟩
  cases x with
  | receiver i =>
    rcases receiver_cases (r.next n) (h.uses n).1 (h.owns n) with ⟨hgrows, hres⟩ | ⟨_, _, res, -, -, hres⟩
    · refine .inl (hpossible ?_ hres)
      refine (Stream.readable_iff _).mpr
        (((Stream.readable_iff _).mp hready).imp (fun hb => ?_) fun hopen => ?_)
      · have hlen := hgrows.sent.length_le
        have htaken := hgrows.taken
        simp only [Stream.buffered] at hb ⊢
        omega
      · exact (hgrows.closed hopen).1
    · right
      left
      rw [hres, hn.results]
      exact List.cons_ne_self _ _
  | sender i =>
    rcases sender_cases (r.next n) (h.uses n).1 (h.owns n) with ⟨hdrains, hres⟩ | ⟨_, _, res, -, -, hres⟩
    · refine .inl (hpossible ?_ hres)
      refine (Stream.writable_iff _).mpr
        (((Stream.writable_iff _).mp hready).imp (fun hfree => ?_) hdrains.closed)
      have htaken := hdrains.taken
      have hcap := hdrains.capacity
      have hlow := hdrains.lowWater
      simp only [Stream.free, Stream.buffered, hdrains.sent] at hfree ⊢
      omega
    · right
      left
      rw [hres, hn.results]
      exact List.cons_ne_self _ _

/-- What stays until the sole user of an end has used it leads to what the use makes of it. -/
lemma User.leadsTo (h : User r f x A) (hreach : Reachable step IsStart (r.state 0))
    (hR : ∀ n, R (r.state n) → A (r.state n) ∧ Endpoint.ready (r.state n).kernel x = true ∧
      (r.state n).results f = l) (hstays : r.Unless R B) : r.LeadsTo R B := by
  intro n hn
  obtain ⟨hA, hready, hres⟩ := hR n hn
  obtain ⟨m, hnm, ⟨hdone, hm⟩ | hB⟩ := (leadsTo_results hreach h.fair h.possible_stays).unless hstays n
    ⟨⟨hA, h.attached n, hready, hres⟩, hn⟩
  · obtain ⟨hAm, -, hresm⟩ := hR m hm
    rcases hdone with hne | hnot
    · exact absurd hresm hne
    · exact absurd hAm hnot
  · exact ⟨m, hnm, hB⟩

/-- As long as something is in the stream, its receiver takes something out. -/
lemma User.leadsTo_taken (h : User r f (.receiver i) A) (t : ℕ) :
    r.LeadsTo (fun c => A c ∧ (c.kernel i).taken = t ∧ t < (c.kernel i).sent.length) fun c =>
      t < (c.kernel i).taken ∨ ¬ A c := by
  rintro n ⟨hA, ht, hlt⟩
  have hstays : r.Unless (fun c => A c ∧ c.results f = (r.state n).results f ∧
      (c.kernel i).taken = t ∧ t < (c.kernel i).sent.length) fun c => t < (c.kernel i).taken ∨ ¬ A c := by
    rintro m ⟨-, hres, htm, hltm⟩
    by_cases hA' : A (r.state (m + 1))
    swap
    · exact .inr (.inr hA')
    rcases receiver_cases (r.next m) (h.uses m).1 (h.owns m) with
        ⟨hgrows, hres'⟩ | ⟨buf, _, res, hbuf, hread, -⟩
    · have hlen := hgrows.sent.length_le
      exact .inl ⟨hA', hres'.trans hres, hgrows.taken.trans htm, by omega⟩
    · refine .inr (.inl ?_)
      have hne := List.length_pos_iff.mpr (request_ne_nil (h.reachable m) hbuf)
      rcases Stream.read_cases hread with ⟨k, hk, -, htaken, -⟩ | ⟨-, -, hzero⟩
      · omega
      · have hb := (hzero.resolve_left hne.ne').2
        simp only [Stream.buffered] at hb
        omega
  refine h.leadsTo (l := (r.state n).results f) h.start.reachable ?_ hstays n ⟨hA, rfl, ht, hlt⟩
  rintro m ⟨hAm, hres, htm, hltm⟩
  refine ⟨hAm, (Stream.readable_iff _).mpr (.inl ?_), hres⟩
  simp only [Stream.buffered]
  omega

/-- When a stream has been shut down and nothing is left in it, its receiver is told so. -/
lemma User.leadsTo_atEnd (h : User r f (.receiver i) A) :
    r.LeadsTo (fun c => A c ∧ (c.kernel i).isOpen = false ∧
      (c.kernel i).taken = (c.kernel i).sent.length) fun c => c.AtEnd f ∨ ¬ A c := by
  rintro n ⟨hA, hopen, ht⟩
  have hstays : r.Unless (fun c => A c ∧ c.results f = (r.state n).results f ∧
      (c.kernel i).isOpen = false ∧ (c.kernel i).taken = (c.kernel i).sent.length) fun c =>
        c.AtEnd f ∨ ¬ A c := by
    rintro m ⟨-, hres, hopenm, htm⟩
    by_cases hA' : A (r.state (m + 1))
    swap
    · exact .inr (.inr hA')
    rcases receiver_cases (r.next m) (h.uses m).1 (h.owns m) with
        ⟨hgrows, hres'⟩ | ⟨buf, _, res, hbuf, hread, hres'⟩
    · obtain ⟨hopen', hsent⟩ := hgrows.closed hopenm
      exact .inl ⟨hA', hres'.trans hres, hopen', by rw [hgrows.taken, hsent, htm]⟩
    · refine .inr (.inl ?_)
      rcases Stream.read_cases hread with ⟨k, hk, -, htaken, hsent, -⟩ | ⟨-, rfl, -⟩
      · have hle := ((r.state (m + 1)).kernel i).taken_le
        rw [htaken, hsent] at hle
        omega
      · exact ⟨_, hres'⟩
  refine h.leadsTo (l := (r.state n).results f) h.start.reachable ?_ hstays n ⟨hA, rfl, hopen, ht⟩
  rintro m ⟨hAm, hres, hopenm, -⟩
  exact ⟨hAm, (Stream.readable_iff _).mpr (.inr hopenm), hres⟩

/-- Nothing that has been sent or taken is forgotten. -/
lemma User.mono (h : User r f (.receiver i) A) {n m : ℕ} (hnm : n ≤ m) :
    ((r.state n).kernel i).taken ≤ ((r.state m).kernel i).taken ∧
      ((r.state n).kernel i).sent <+: ((r.state m).kernel i).sent := by
  induction m, hnm using Nat.le_induction with
  | base => exact ⟨le_rfl, List.prefix_refl _⟩
  | succ m hnm ih =>
    rcases receiver_cases (r.next m) (h.uses m).1 (h.owns m) with ⟨hgrows, -⟩ | ⟨_, _, _, -, hread, -⟩
    · exact ⟨ih.1.trans hgrows.taken.ge, ih.2.trans hgrows.sent⟩
    · have hdrains := Stream.drains_of_read hread
      exact ⟨ih.1.trans hdrains.taken, hdrains.sent.symm ▸ ih.2⟩

/-- What has been sent is taken out as long as this is awaited. -/
lemma User.leadsTo_allTaken (h : User r f (.receiver i) A) (len : ℕ) :
    r.LeadsTo (fun c => len ≤ (c.kernel i).sent.length) fun c => len ≤ (c.kernel i).taken ∨ ¬ A c := by
  -- By induction on what is left to be taken out.
  suffices hleft : ∀ d n, len ≤ ((r.state n).kernel i).sent.length →
      len - ((r.state n).kernel i).taken ≤ d →
        ∃ m, n ≤ m ∧ (len ≤ ((r.state m).kernel i).taken ∨ ¬ A (r.state m)) from
    fun n hn => hleft _ n hn le_rfl
  intro d
  induction d with
  | zero => exact fun n _ hd => ⟨n, le_rfl, .inl (by omega)⟩
  | succ d ih =>
    intro n hn hd
    by_cases hdone : len ≤ ((r.state n).kernel i).taken ∨ ¬ A (r.state n)
    · exact ⟨n, le_rfl, hdone⟩
    · push Not at hdone
      obtain ⟨m, hnm, hm | hnot⟩ := h.leadsTo_taken _ n ⟨hdone.2, rfl, by omega⟩
      · have hlen := (h.mono hnm).2.length_le
        obtain ⟨j, hmj, hj⟩ := ih m (hn.trans hlen) (by omega)
        exact ⟨j, hnm.trans hmj, hj⟩
      · exact ⟨m, hnm, .inr hnot⟩

end Runs

end Io

end Epox

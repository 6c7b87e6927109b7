import Epox.Fd.Stream

/-!
# Transfers

What `AsyncReadFd` and `AsyncWriteFd` promise together, when they are the two ends of a stream on one thread, or
when the other end belongs to another process: the bytes arrive in order, the two ends never wait for each
other, everything that is sent is received, and a transfer of any length is completed although it fits into the
stream only piece by piece.
-/

namespace Epox

namespace Io

variable {V : Type} {c : Io V streams} {f g : FdId} {i : ℕ}

/-! ## In every state -/

/-- What has been read from a stream is the beginning of what has been written to it, and no more is missing
than fits into the stream.  If the buffers of the reader were not empty, nothing is missing when a read has
reported the end of the stream.  Polls that return `Poll::Pending`, yield because of the burst limit or
repeat an interrupted system call transfer nothing. -/
theorem received_in_order (h : ReachableUnder step IsStart
      (fun c a => Sole g (.sender i) c a ∧ Sole f (.receiver i) c a) c) :
    bytesOf (c.results f) <+: bytesOf (c.results g) ∧
      (bytesOf (c.results g)).length ≤ (bytesOf (c.results f)).length + (c.kernel i).capacity ∧
        (ReachableUnder step IsStart (Uses f (.receiver i)) c → c.AtEnd f →
          bytesOf (c.results f) = bytesOf (c.results g)) := by
  have hsent := sent_of_reachable (h.mono fun _ _ h => h.1)
  have hreceived := received_of_reachable (h.mono fun _ _ h => h.2)
  have hlen : (bytesOf (c.results f)).length = (c.kernel i).taken := by
    rw [hreceived, List.length_take, Nat.min_eq_left (c.kernel i).taken_le]
  refine ⟨?_, ?_, fun hfilled hend => ?_⟩
  · rw [hsent, hreceived]
    exact List.take_prefix ..
  · rw [hsent, hlen]
    exact (c.kernel i).fits
  · rw [hsent, hreceived, (ended_of_reachable hfilled hend).2]
    exact List.take_length ..

/-- The two ends of a stream never wait for each other: when the latest polls of both have left their wakers
behind, an edge is queued for one of them; and the step that delivers an edge makes the task runnable whose
waker has been left with the `Fd`. -/
theorem never_both_parked (h : Reachable step IsStart c) (hp : c.epoll.thread.panicked = none)
    (hg : c.object g = some (.sender i)) (hf : c.object f = some (.receiver i))
    (hreg : c.epoll.thread.inInterest g ∧ c.epoll.thread.inInterest f)
    (hparked : c.epoll.parked g ≠ none ∧ c.epoll.parked f ≠ none) :
    (c.epoll.edge g ≠ 0 ∨ c.epoll.edge f ≠ 0) ∧
      ∀ e a c' t, c.epoll.parked e = some (.task t) → c.step (.epoll (.thread a)) = some c' →
        c'.epoll.thread.panicked = none → c.epoll.thread.delivers a e = true →
          c.epoll.thread.alive t = true → (c.epoll.thread.tasks t).hasCompleted = false →
            c'.epoll.thread.runnable t := by
  have hok := parkedOk_of_reachable h hp
  refine ⟨?_, fun e a c' t he hs hp' hd halive hc => ?_⟩
  · by_contra hedges
    push Not at hedges
    obtain ⟨v, hv⟩ := Option.ne_none_iff_exists'.mp hparked.1
    obtain ⟨w, hw⟩ := Option.ne_none_iff_exists'.mp hparked.2
    have hfull := (attached_of_reachable h hg).not_ready hp hreg.1 hedges.1 (hok g v hv).events
    have hempty := (attached_of_reachable h hf).not_ready hp hreg.2 hedges.2 (hok f w hw).events
    have hfree : ¬ (c.kernel i).lowWater ≤ (c.kernel i).free := fun hle =>
      Bool.false_ne_true (hfull.symm.trans ((Stream.writable_iff _).mpr (.inl hle)))
    have hbuffered : ¬ 0 < (c.kernel i).buffered := fun hlt =>
      Bool.false_ne_true (hempty.symm.trans ((Stream.readable_iff _).mpr (.inl hlt)))
    have hle := (c.kernel i).lowWater_le
    simp only [Stream.free] at hfree
    omega
  · simp only [step, Option.ite_none_right_eq_some] at hs
    obtain ⟨hs, -⟩ := epollStep_eq_some hs.2
    rcases Epoll.step_cases hs with ⟨b, hb, ha⟩ | ⟨hb, -⟩
    · obtain ⟨rfl, -⟩ : a = b ∧ _ := by simpa using hb
      exact (hok e _ he).runnable_of_step (Epoll.threadStep_eq_some ha).2.1 hp' hd halive hc
    · exact absurd rfl (hb a)

/-! ## In endless runs -/

section Runs

variable {r : EndlessRun (step (V := V) (D := streams))} {A : Io V streams → Prop}

/-- A receiver has taken out what it has received. -/
lemma User.length_received (h : User r f (.receiver i) A) (n : ℕ) :
    (bytesOf ((r.state n).results f)).length = ((r.state n).kernel i).taken := by
  rw [received_of_reachable ((h.reachable n).mono fun _ _ h => h.1), List.length_take,
    Nat.min_eq_left ((r.state n).kernel i).taken_le]

/-- In every fair run a sole receiver that is polled until it has been told that the stream has ended
receives everything that is sent, whoever sends it; and if the stream is shut down at one of its ends, it
is told so after it has received all of it. -/
theorem all_received (h : User r f (.receiver i) fun c => ¬ c.AtEnd f) :
    (∀ n, ∃ m, n ≤ m ∧ ((r.state n).kernel i).sent <+: bytesOf ((r.state m).results f)) ∧
      ∀ n, ((r.state n).kernel i).isOpen = false → ∃ m, n ≤ m ∧ (r.state m).AtEnd f ∧
        bytesOf ((r.state m).results f) = ((r.state m).kernel i).sent := by
  have hall : ∀ n, ∃ m, n ≤ m ∧ ((r.state n).kernel i).sent.length ≤ ((r.state m).kernel i).taken := by
    intro n
    obtain ⟨m, hnm, hm | hend⟩ := h.leadsTo_allTaken _ n le_rfl
    · exact ⟨m, hnm, hm⟩
    · refine ⟨m, hnm, ?_⟩
      rw [(ended_of_reachable (h.reachable m) (not_not.mp hend)).2]
      exact (h.mono hnm).2.length_le
  refine ⟨fun n => ?_, fun n hopen => ?_⟩
  · obtain ⟨m, hnm, hm⟩ := hall n
    obtain ⟨t, ht⟩ := (h.mono hnm).2
    refine ⟨m, hnm, ?_⟩
    rw [received_of_reachable ((h.reachable m).mono fun _ _ h => h.1), ← ht]
    exact List.prefix_take_iff.mpr ⟨List.prefix_append .., hm⟩
  · -- Nothing is sent any more, so that at some time everything has been taken out.
    obtain ⟨m, hnm, hm⟩ := hall n
    have hclosed : ∀ j, n ≤ j → ((r.state j).kernel i).isOpen = false ∧
        ((r.state j).kernel i).sent = ((r.state n).kernel i).sent := by
      intro j hnj
      induction j, hnj using Nat.le_induction with
      | base => exact ⟨hopen, rfl⟩
      | succ j hnj ih =>
        rcases receiver_cases (r.next j) (h.uses j).1 (h.owns j) with ⟨hgrows, -⟩ | ⟨_, _, _, -, hread, -⟩
        · obtain ⟨hopen', hsent⟩ := hgrows.closed ih.1
          exact ⟨hopen', hsent.trans ih.2⟩
        · have hdrains := Stream.drains_of_read hread
          exact ⟨hdrains.closed ih.1, hdrains.sent.trans ih.2⟩
    have htaken : ((r.state m).kernel i).taken = ((r.state m).kernel i).sent.length :=
      ((r.state m).kernel i).taken_le.antisymm ((hclosed m hnm).2 ▸ hm)
    have hend : ∃ j, m ≤ j ∧ (r.state j).AtEnd f := by
      by_cases hA : (r.state m).AtEnd f
      · exact ⟨m, le_rfl, hA⟩
      · obtain ⟨j, hmj, hj⟩ := h.leadsTo_atEnd m ⟨hA, (hclosed m hnm).1, htaken⟩
        exact ⟨j, hmj, hj.elim id not_not.mp⟩
    obtain ⟨j, hmj, hj⟩ := hend
    refine ⟨j, hnm.trans hmj, hj, ?_⟩
    rw [received_of_reachable ((h.reachable j).mono fun _ _ h => h.1),
      (ended_of_reachable (h.reachable j) hj).2]
    exact List.take_length ..

/-- As long as the stream has room for it, its sender puts something in. -/
lemma User.leadsTo_sent (h : User r g (.sender i) A) (len : ℕ) :
    r.LeadsTo (fun c => A c ∧ (c.kernel i).sent.length = len ∧
      (c.kernel i).lowWater ≤ (c.kernel i).free) fun c =>
        len < (c.kernel i).sent.length ∨ (c.kernel i).isOpen = false ∨ ¬ A c := by
  rintro n ⟨hA, hlen, hfree⟩
  have hstays : r.Unless (fun c => A c ∧ c.results g = (r.state n).results g ∧
      (c.kernel i).sent.length = len ∧ (c.kernel i).lowWater ≤ (c.kernel i).free) fun c =>
        len < (c.kernel i).sent.length ∨ (c.kernel i).isOpen = false ∨ ¬ A c := by
    rintro m ⟨-, hres, hlenm, hfreem⟩
    by_cases hA' : A (r.state (m + 1))
    swap
    · exact .inr (.inr (.inr hA'))
    rcases sender_cases (r.next m) (h.uses m).1 (h.owns m) with
        ⟨hdrains, hres'⟩ | ⟨buf, _, res, hbuf, hwrite, -⟩
    · have htaken := hdrains.taken
      have hcap := hdrains.capacity
      have hlow := hdrains.lowWater
      refine .inl ⟨hA', hres'.trans hres, hdrains.sent ▸ hlenm, ?_⟩
      simp only [Stream.free, Stream.buffered, hdrains.sent] at hfreem ⊢
      omega
    · right
      have hne := request_ne_nil (h.reachable m) hbuf
      rcases Stream.write_cases hwrite with ⟨k, hk, -, hsent, -⟩ | ⟨heq, -, hopen⟩
      · obtain ⟨hpos, hle⟩ := hk hne
        left
        rw [hsent, List.length_append, List.length_take, hlenm]
        omega
      · exact .inr (.inl (heq ▸ hopen))
  refine h.leadsTo (l := (r.state n).results g) h.start.reachable ?_ hstays n ⟨hA, rfl, hlen, hfree⟩
  rintro m ⟨hAm, hres, -, hfreem⟩
  exact ⟨hAm, (Stream.writable_iff _).mpr (.inl hfreem), hres⟩

/-- A sender goes on until it has sent as much as it wants to: if the stream is full, the receiver makes
room. -/
lemma User.exists_sent_lt {len : ℕ} (hg : User r g (.sender i) fun c => (bytesOf (c.results g)).length < len)
    (hf : User r f (.receiver i) fun c => (bytesOf (c.results f)).length < len)
    (hopen : ∀ n, (bytesOf ((r.state n).results f)).length < len → ((r.state n).kernel i).isOpen = true)
    (n : ℕ) (hn : ((r.state n).kernel i).sent.length < len) :
    ∃ m, n ≤ m ∧ ((r.state n).kernel i).sent.length < ((r.state m).kernel i).sent.length := by
  have hsent : ∀ m, bytesOf ((r.state m).results g) = ((r.state m).kernel i).sent := fun m =>
    sent_of_reachable ((hg.reachable m).mono fun _ _ h => h.1)
  -- When everything has been received, everything has been sent.
  have hdone : ∀ m, ¬ (bytesOf ((r.state m).results f)).length < len →
      ((r.state n).kernel i).sent.length < ((r.state m).kernel i).sent.length := by
    intro m hm
    have hle := ((r.state m).kernel i).taken_le
    rw [hf.length_received] at hm
    omega
  -- By induction on what is in the stream.
  suffices hleft : ∀ d j, n ≤ j → ((r.state j).kernel i).buffered ≤ d →
      ∃ m, n ≤ m ∧ ((r.state n).kernel i).sent.length < ((r.state m).kernel i).sent.length from
    hleft _ n le_rfl le_rfl
  intro d
  induction d with
  | zero =>
    intro j hnj hd
    have hmono := (hf.mono hnj).2.length_le
    by_cases hlt : ((r.state n).kernel i).sent.length < ((r.state j).kernel i).sent.length
    · exact ⟨j, hnj, hlt⟩
    · have hle := ((r.state j).kernel i).lowWater_le
      obtain ⟨m, hjm, hm | hclosed | hnot⟩ := hg.leadsTo_sent _ j
        ⟨by rw [hsent]; omega, rfl, by simp only [Stream.free]; omega⟩
      · exact ⟨m, hnj.trans hjm, by omega⟩
      · refine ⟨m, hnj.trans hjm, hdone m fun hlt => ?_⟩
        simp [hopen m hlt] at hclosed
      · refine ⟨m, hnj.trans hjm, ?_⟩
        rw [hsent] at hnot
        omega
  | succ d ih =>
    intro j hnj hd
    have hmono := (hf.mono hnj).2.length_le
    by_cases hlt : ((r.state n).kernel i).sent.length < ((r.state j).kernel i).sent.length
    · exact ⟨j, hnj, hlt⟩
    by_cases hbuffered : ((r.state j).kernel i).buffered ≤ d
    · exact ih j hnj hbuffered
    simp only [Stream.buffered] at hd hbuffered
    obtain ⟨m, hjm, hm | hnot⟩ := hf.leadsTo_taken _ j ⟨by rw [hf.length_received]; omega, rfl, by omega⟩
    · have hmono' := (hf.mono hjm).2.length_le
      by_cases hlt' : ((r.state n).kernel i).sent.length < ((r.state m).kernel i).sent.length
      · exact ⟨m, hnj.trans hjm, hlt'⟩
      · refine ih m (hnj.trans hjm) ?_
        simp only [Stream.buffered]
        omega
    · exact ⟨m, hnj.trans hjm, hdone m hnot⟩

/-- A transfer is completed.  On one thread there are a sole sender that is polled until it has sent `len`
bytes and a sole receiver that is polled until it has received as many, and neither end is shut down before;
in every run that is fair to both `Fd`s the receiver gets them, in order, however small the stream is. -/
theorem transfer_completes {len : ℕ}
    (hg : User r g (.sender i) fun c => (bytesOf (c.results g)).length < len)
    (hf : User r f (.receiver i) fun c => (bytesOf (c.results f)).length < len)
    (hopen : ∀ n, (bytesOf ((r.state n).results f)).length < len → ((r.state n).kernel i).isOpen = true) :
    ∃ n, len ≤ (bytesOf ((r.state n).results f)).length ∧
      bytesOf ((r.state n).results f) <+: bytesOf ((r.state n).results g) := by
  have hall : ∃ n, len ≤ ((r.state n).kernel i).sent.length := by
    suffices hleft : ∀ d n, len - ((r.state n).kernel i).sent.length ≤ d →
        ∃ m, len ≤ ((r.state m).kernel i).sent.length from hleft _ 0 le_rfl
    intro d
    induction d with
    | zero => exact fun n hd => ⟨n, by omega⟩
    | succ d ih =>
      intro n hd
      by_cases hn : ((r.state n).kernel i).sent.length < len
      · obtain ⟨m, -, hm⟩ := hg.exists_sent_lt hf hopen n hn
        exact ih m (by omega)
      · exact ⟨n, by omega⟩
  obtain ⟨n, hn⟩ := hall
  obtain ⟨m, -, hm⟩ := hf.leadsTo_allTaken len n hn
  have hle : len ≤ (bytesOf ((r.state m).results f)).length := by
    rw [hf.length_received] at hm ⊢
    omega
  refine ⟨m, hle, ?_⟩
  rw [sent_of_reachable ((hg.reachable m).mono fun _ _ h => h.1),
    received_of_reachable ((hf.reachable m).mono fun _ _ h => h.1)]
  exact List.take_prefix ..

end Runs

/-! ## A transfer of five bytes -/

/-- Four bytes fit into each stream. -/
def fourBytes : Stream where
  sent := []
  taken := 0
  capacity := 4
  lowWater := 1
  sending := true
  receiving := true
  taken_le := le_rfl
  fits := by decide
  lowWater_pos := by decide
  lowWater_le := by decide

/-- A thread at its start and empty streams. -/
def atStart : Io Unit streams where
  epoll := .start Unit
  kernel _ := fourBytes
  object _ := none
  request _ := none
  pendings _ := 0
  results _ := []
  waiting _ := none

/-- `atStart` is a start. -/
lemma isStart_atStart : IsStart atStart :=
  ⟨⟨⟨3, 16, by decide, rfl⟩, rfl, rfl, rfl⟩, fun _ => rfl, fun _ => rfl, fun _ => ⟨rfl, rfl⟩,
    fun _ => rfl⟩

/-- A task has an `Fd` for each end of a stream. -/
def setUp : List (IoAction Unit streams) :=
  [.epoll (.thread (.spawn .normal)), .epoll (.thread .run), .epoll (.thread (.go (.ok []))),
    .fdNew (.sender 0) 7 true true, .fdNew (.receiver 0) 8 true true]

/-- It tries to read, and then writes four bytes and cannot write a fifth one. -/
def fill : List (IoAction Unit streams) :=
  [.poll 1 [0, 0] (.task 0) (.ok []), .operate 0, .poll 0 [1, 2, 3, 4] (.task 0) (.ok []), .operate 4,
    .poll 0 [5] (.task 0) (.ok []), .operate 0]

/-- It is woken, reads what it has written, writes and reads the rest, and closes the sending end. -/
def empty : List (IoAction Unit streams) :=
  [.epoll (.thread .pending), .epoll (.thread (.go (.ok []))), .epoll (.thread (.go (.ok []))),
    .epoll (.thread (.go (.ok [.fd 1 1]))), .epoll (.thread (.go (.ok []))),
    .poll 1 [0, 0, 0, 0] (.task 0) (.ok []), .operate 4, .epoll (.thread (.wake (.task 0) (.ok [.fd 0 4]))),
    .poll 0 [5] (.task 0) (.ok []), .operate 1, .poll 1 [0] (.task 0) (.ok []), .operate 1,
    .event (.shutdown 0), .poll 1 [0] (.task 0) (.ok []), .operate 1]

/-- What is needed of each step of the transfer. -/
def Orderly (c : Io Unit streams) (a : IoAction Unit streams) : Prop :=
  (Uses 0 (.sender 0) c a ∧ Uses 1 (.receiver 0) c a) ∧ c.epoll.thread.panicked = none ∧
    ((c.epoll.thread.inInterest 0 ∧ c.Tended 0) ∧ c.epoll.thread.inInterest 1 ∧ c.Tended 1) ∧
      ((bytesOf (c.results 1)).length < 5 → (c.kernel 0).isOpen = true)

instance (c : Io Unit streams) (a : IoAction Unit streams) : Decidable (Orderly c a) :=
  inferInstanceAs (Decidable (_ ∧ _))

/-- An endless run in which the five bytes are transferred, and its use of the two ends. -/
lemma exists_transfer : ∃ r : EndlessRun (step (V := Unit) (D := streams)),
    (bytesOf ((r.state 0).results 0) = [] ∧ ((r.state 0).kernel 0).capacity = 4) ∧
      User r 0 (.sender 0) (fun c => (bytesOf (c.results 0)).length < 5) ∧
        User r 1 (.receiver 0) (fun c => (bytesOf (c.results 1)).length < 5) ∧
          User r 1 (.receiver 0) (fun c => ¬ c.AtEnd 1) ∧
            ∀ n, (bytesOf ((r.state n).results 1)).length < 5 → ((r.state n).kernel 0).isOpen = true := by
  obtain ⟨c₀, hc₀, h⟩ := ReachableUnder.exists_run step
    (fun (c : Io Unit streams) a => Uses 0 (.sender 0) c a ∧ Uses 1 (.receiver 0) c a) isStart_atStart setUp
    (P := fun c₀ => (exec step (fun c a => decide (Orderly c a)) c₀ (fill ++ empty)).any
      fun c : Io Unit streams => decide (
        (bytesOf (c₀.results 0) = [] ∧ (c₀.kernel 0).capacity = 4 ∧ c₀.object 0 = some (.sender 0) ∧
          c₀.object 1 = some (.receiver 0)) ∧ c.epoll.thread.panicked = none ∧
            (bytesOf (c.results 0)).length = 5 ∧ (bytesOf (c.results 1)).length = 5 ∧
              (c.results 1).head? = some (.transferred []))) (by decide +kernel)
  obtain ⟨c, hexec, h⟩ := (Option.any_eq_true _ _).mp h
  obtain ⟨⟨hnil, hcap, hx₀, hx₁⟩, hp, hsent, hreceived, hend⟩ := of_decide_eq_true h
  obtain ⟨r, rfl, horderly, hlater⟩ := exists_resting_run (C := Orderly) hexec
  have huses : ∀ n, Uses 0 (.sender 0) (r.state n) (r.action n) ∧
      Uses 1 (.receiver 0) (r.state n) (r.action n) := fun n => by
    rcases horderly n with ho | ⟨-, ha⟩
    · exact ho.1
    · rw [ha]
      exact ⟨⟨⟨trivial, trivial⟩, trivial⟩, ⟨⟨trivial, trivial⟩, trivial⟩⟩
  have hpanicked : ∀ n, (r.state n).epoll.thread.panicked = none := fun n =>
    (horderly n).elim (fun ho => ho.2.1) fun hn => hn.1 ▸ hp
  have hreg₀ : ∀ n, r.state n = c ∨ (r.state n).epoll.thread.inInterest 0 ∧ (r.state n).Tended 0 := fun n =>
    (horderly n).symm.imp And.left fun ho => ho.2.2.1.1
  have hreg₁ : ∀ n, r.state n = c ∨ (r.state n).epoll.thread.inInterest 1 ∧ (r.state n).Tended 1 := fun n =>
    (horderly n).symm.imp And.left fun ho => ho.2.2.1.2
  have hatEnd : c.AtEnd 1 := by
    cases hl : c.results 1 with
    | nil => simp [hl] at hend
    | cons res l =>
      obtain rfl : res = .transferred [] := by simpa [hl] using hend
      exact ⟨l, hl⟩
  have hstart₀ := hc₀.mono fun _ _ h => h.1
  have hstart₁ := hc₀.mono fun _ _ h => h.2
  have huses₁ := fun n => (huses n).2
  refine ⟨r, ⟨hnil, hcap⟩, ⟨hstart₀, fun n => (huses n).1, hx₀, ?_⟩, ⟨hstart₁, huses₁, hx₁, ?_⟩,
    ⟨hstart₁, huses₁, hx₁, ?_⟩, fun n hn => ?_⟩
  · exact fair_of_rest hlater (by omega) fun n => ⟨hpanicked n, hreg₀ n⟩
  · exact fair_of_rest hlater (by omega) fun n => ⟨hpanicked n, hreg₁ n⟩
  · exact fair_of_rest hlater (not_not.mpr hatEnd) fun n => ⟨hpanicked n, hreg₁ n⟩
  · rcases horderly n with ho | ⟨heq, -⟩
    · exact ho.2.2.2 hn
    · rw [heq] at hn
      omega

/-- Four of the five bytes have been read when the fifth one has been written. -/
theorem received_in_order_of_five : ∃ c : Io Unit streams, ReachableUnder step IsStart
      (fun c a => Sole 0 (.sender 0) c a ∧ Sole 1 (.receiver 0) c a) c ∧
    bytesOf (c.results 0) = [1, 2, 3, 4, 5] ∧ bytesOf (c.results 1) = [1, 2, 3, 4] ∧
      bytesOf (c.results 1) <+: bytesOf (c.results 0) := by
  obtain ⟨c, hc, h⟩ := ReachableUnder.exists_run step
    (fun (c : Io Unit streams) a => Sole 0 (.sender 0) c a ∧ Sole 1 (.receiver 0) c a) isStart_atStart
    (setUp ++ fill ++ empty.take 10)
    (P := fun c => decide (bytesOf (c.results 0) = [1, 2, 3, 4, 5] ∧
      bytesOf (c.results 1) = [1, 2, 3, 4])) (by decide +kernel)
  obtain ⟨hsent, hreceived⟩ := of_decide_eq_true h
  exact ⟨c, hc, hsent, hreceived, (received_in_order hc).1⟩

/-- Both ends have left the waker of the task behind, and an edge is queued; the step of `run` that
delivers it makes the task runnable. -/
theorem never_both_parked_in_transfer : ∃ c c' : Io Unit streams, Reachable step IsStart c ∧
    c.epoll.parked 0 = some (.task 0) ∧ c.epoll.parked 1 = some (.task 0) ∧
      (c.epoll.edge 0 ≠ 0 ∨ c.epoll.edge 1 ≠ 0) ∧
        c.step (.epoll (.thread (.go (.ok [.fd 1 1])))) = some c' ∧ c'.epoll.thread.runnable 0 := by
  obtain ⟨c, hc, h⟩ := ReachableUnder.exists_free_run step isStart_atStart (setUp ++ fill ++ empty.take 3)
    (P := fun c => (c.step (.epoll (.thread (.go (.ok [.fd 1 1]))))).any fun c' : Io Unit streams => decide (
      c.epoll.thread.panicked = none ∧ c.object 0 = some (.sender 0) ∧ c.object 1 = some (.receiver 0) ∧
        (c.epoll.thread.inInterest 0 ∧ c.epoll.thread.inInterest 1) ∧
          (c.epoll.parked 0 = some (.task 0) ∧ c.epoll.parked 1 = some (.task 0)) ∧
            c'.epoll.thread.panicked = none ∧ c.epoll.thread.delivers (.go (.ok [.fd 1 1])) 1 = true ∧
              c.epoll.thread.alive 0 = true ∧ (c.epoll.thread.tasks 0).hasCompleted = false))
    (by decide +kernel)
  obtain ⟨c', hs, h⟩ := (Option.any_eq_true _ _).mp h
  obtain ⟨hp, hg, hf, hreg, hparked, hp', hd, halive, hdone⟩ := of_decide_eq_true h
  have hboth : c.epoll.parked 0 ≠ none ∧ c.epoll.parked 1 ≠ none := by simp [hparked]
  obtain ⟨hedge, hwoken⟩ := never_both_parked hc hp hg hf hreg hboth
  exact ⟨c, c', hc, hparked.1, hparked.2, hedge, hs, hwoken 1 _ c' 0 hparked.2 hs hp' hd halive hdone⟩

/-- All five bytes are received, and then the end of the stream. -/
theorem all_received_of_five : ∃ r : EndlessRun (step (V := Unit) (D := streams)),
    bytesOf ((r.state 0).results 0) = [] ∧
      ∀ n, ∃ m, n ≤ m ∧ ((r.state n).kernel 0).sent <+: bytesOf ((r.state m).results 1) := by
  obtain ⟨r, ⟨hnil, -⟩, -, -, huser, -⟩ := exists_transfer
  exact ⟨r, hnil, (all_received huser).1⟩

/-- Five bytes are sent through a stream into which four fit. -/
theorem transfer_completes_of_five : ∃ (r : EndlessRun (step (V := Unit) (D := streams))) (n : ℕ),
    bytesOf ((r.state 0).results 0) = [] ∧ ((r.state 0).kernel 0).capacity = 4 ∧
      5 ≤ (bytesOf ((r.state n).results 1)).length := by
  obtain ⟨r, ⟨hnil, hcap⟩, hsender, hreceiver, -, hopen⟩ := exists_transfer
  obtain ⟨n, hn, -⟩ := transfer_completes hsender hreceiver hopen
  exact ⟨r, n, hnil, hcap, hn⟩

end Io

end Epox

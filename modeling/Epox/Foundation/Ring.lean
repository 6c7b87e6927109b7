import Mathlib.Data.List.Chain
import Mathlib.Data.List.Nodup
import Mathlib.Tactic.Common

/-!
# Circular doubly linked lists

A heap of linked nodes is given by two partial maps `f` and `b`: `f x` is the node that follows `x`
and `b x` the node that precedes it.  `Linked f b l` says that consecutive nodes of `l` point at each
other, and `Ring f b h l` that the nodes of `l` form, in this order, a circle closed by the node `h`
(the list head of a C programmer).

The two edits of such a structure are `Ring.unlink`, which takes one node out of the circle, and
`Ring.link`, which adds a node just before the closing one.  `Ring.congr` moves a circle to any other
pair of maps that agrees on its nodes, which is how several circles share one heap.
-/

namespace Epox

variable {N : Type*}

/-- Consecutive nodes of the list point at each other. -/
def Linked (f b : N → Option N) (l : List N) : Prop :=
  l.IsChain fun x y => f x = some y ∧ b y = some x

/-- The nodes of `l` form, in this order, a circle through `h`. -/
def Ring (f b : N → Option N) (h : N) (l : List N) : Prop :=
  Linked f b (h :: (l ++ [h]))

/-! ## Segments -/

/-- A segment only reads the forward pointers of all its nodes but the last, and the backward pointers
of all its nodes but the first. -/
lemma Linked.congr {f b f' b' : N → Option N} {l : List N} (hl : Linked f b l)
    (hf : ∀ x ∈ l.dropLast, f' x = f x) (hb : ∀ x ∈ l.tail, b' x = b x) : Linked f' b' l := by
  induction l with
  | nil => exact List.isChain_nil
  | cons x l ih =>
    cases l with
    | nil => exact List.isChain_singleton x
    | cons y l =>
      obtain ⟨⟨hxy, hyx⟩, htail⟩ := List.isChain_cons_cons.mp hl
      refine List.isChain_cons_cons.mpr ⟨⟨?_, ?_⟩, ih htail ?_ ?_⟩
      · rw [hf x (by simp), hxy]
      · rw [hb y (by simp), hyx]
      · intro z hz
        exact hf z (by simpa using Or.inr hz)
      · intro z hz
        exact hb z (by simpa using Or.inr hz)

/-- Two segments that share the end node of the first join to one. -/
lemma linked_append_cons {f b : N → Option N} {l₁ l₂ : List N} {x : N} :
    Linked f b (l₁ ++ x :: l₂) ↔ Linked f b (l₁ ++ [x]) ∧ Linked f b (x :: l₂) :=
  List.isChain_split

/-- A segment of two nodes and more is its first link and the rest. -/
lemma linked_cons_cons {f b : N → Option N} {l : List N} {x y : N} :
    Linked f b (x :: y :: l) ↔ (f x = some y ∧ b y = some x) ∧ Linked f b (y :: l) :=
  List.isChain_cons_cons

/-- A nonempty list is a list with a last node. -/
lemma exists_eq_concat (x : N) (l : List N) : ∃ a y, x :: l = a ++ [y] :=
  ⟨(x :: l).dropLast, (x :: l).getLast (by simp),
    (List.dropLast_append_getLast (by simp)).symm⟩

/-- A list with a last node is a nonempty list. -/
lemma exists_eq_cons (l : List N) (x : N) : ∃ y c, l ++ [x] = y :: c := by
  cases l with
  | nil => exact ⟨x, [], rfl⟩
  | cons y l => exact ⟨y, l ++ [x], rfl⟩

/-! ## Circles -/

/-- The empty circle is a node that points at itself both ways. -/
lemma ring_nil_iff {f b : N → Option N} {h : N} :
    Ring f b h [] ↔ f h = some h ∧ b h = some h := by
  simp [Ring, Linked, List.isChain_cons_cons]

/-- A circle only reads the pointers of its own nodes. -/
lemma Ring.congr {f b f' b' : N → Option N} {h : N} {l : List N} (hr : Ring f b h l)
    (hag : ∀ x ∈ h :: l, f' x = f x ∧ b' x = b x) : Ring f' b' h l := by
  refine Linked.congr hr (fun x hx => (hag x ?_).1) (fun x hx => (hag x ?_).2)
  · rw [← List.cons_append, List.dropLast_concat] at hx
    exact hx
  · simp only [List.tail_cons, List.mem_append, List.mem_singleton] at hx
    rcases hx with hx | rfl
    · exact List.mem_cons_of_mem _ hx
    · exact List.mem_cons_self

/-- The first node of a circle is the one its head points forward to. -/
lemma Ring.forward_head {f b : N → Option N} {h x : N} {l : List N} (hr : Ring f b h (x :: l)) :
    f h = some x :=
  (linked_cons_cons.mp hr).1.1

/-- The head of a nonempty circle does not point at itself. -/
lemma Ring.forward_head_eq_iff {f b : N → Option N} {h : N} {l : List N} (hr : Ring f b h l)
    (hh : h ∉ l) : f h = some h ↔ l = [] := by
  cases l with
  | nil => simpa using (ring_nil_iff.mp hr).1
  | cons x l =>
    rw [hr.forward_head]
    simp only [List.mem_cons, not_or] at hh
    simpa using fun hx => hh.1 hx.symm

/-- The head of a circle points backward to the last node. -/
lemma Ring.backward_head {f b : N → Option N} {h p : N} {l a : List N} (hr : Ring f b h l)
    (hp : h :: l = a ++ [p]) : b h = some p ∧ f p = some h := by
  have hl : Linked f b (a ++ p :: [h]) := by
    have heq : a ++ p :: [h] = h :: (l ++ [h]) := by
      rw [← List.cons_append, hp, List.append_assoc, List.singleton_append]
    rw [heq]
    exact hr
  have hlast := (linked_cons_cons.mp (linked_append_cons.mp hl).2).1
  exact ⟨hlast.2, hlast.1⟩

/-- The pointers of a node in the middle of a circle lead to its neighbours. -/
lemma Ring.neighbours {f b : N → Option N} {h x p n : N} {l₁ l₂ a c : List N}
    (hr : Ring f b h (l₁ ++ x :: l₂)) (hp : h :: l₁ = a ++ [p]) (hn : l₂ ++ [h] = n :: c) :
    f x = some n ∧ b x = some p := by
  have heq : h :: (l₁ ++ x :: l₂ ++ [h]) = a ++ p :: x :: n :: c := by
    calc h :: (l₁ ++ x :: l₂ ++ [h]) = (h :: l₁) ++ x :: (l₂ ++ [h]) := by simp
      _ = a ++ p :: x :: n :: c := by rw [hp, hn]; simp
  have hl : Linked f b (a ++ p :: x :: n :: c) := heq ▸ hr
  obtain ⟨hpx, hxn⟩ := linked_cons_cons.mp (linked_append_cons.mp hl).2
  exact ⟨(linked_cons_cons.mp hxn).1.1, hpx.2⟩

/-- In a circle the two pointers are inverse to each other: every node has a successor that points
back at it and a predecessor that points forward to it, both in the circle. -/
lemma Ring.inverse {f b : N → Option N} {h x : N} {l : List N} (hr : Ring f b h l)
    (hx : x ∈ h :: l) :
    (∃ y ∈ h :: l, f x = some y ∧ b y = some x) ∧ ∃ y ∈ h :: l, b x = some y ∧ f y = some x := by
  have hmem : ∀ {y a c}, h :: (l ++ [h]) = a ++ y :: c → y ∈ h :: l := by
    intro y a c heq
    have hy : y ∈ h :: (l ++ [h]) := by rw [heq]; simp
    simp only [List.mem_cons, List.mem_append, List.not_mem_nil, or_false] at hy ⊢
    tauto
  constructor
  · obtain ⟨a, c, hac⟩ := List.append_of_mem hx
    obtain ⟨y, d, hd⟩ := exists_eq_cons c h
    have heq : h :: (l ++ [h]) = a ++ x :: y :: d := by
      calc h :: (l ++ [h]) = (h :: l) ++ [h] := by simp
        _ = a ++ x :: (c ++ [h]) := by rw [hac]; simp
        _ = a ++ x :: y :: d := by rw [hd]
    have hl : Linked f b (a ++ x :: y :: d) := heq ▸ hr
    refine ⟨y, hmem (a := a ++ [x]) (c := d) (by simpa using heq), ?_⟩
    exact (linked_cons_cons.mp (linked_append_cons.mp hl).2).1
  · have hx' : x ∈ l ++ [h] := by
      simp only [List.mem_cons, List.mem_append, List.not_mem_nil, or_false] at hx ⊢
      tauto
    obtain ⟨a, c, hac⟩ := List.append_of_mem hx'
    obtain ⟨d, y, hd⟩ := exists_eq_concat h a
    have heq : h :: (l ++ [h]) = d ++ y :: x :: c := by
      calc h :: (l ++ [h]) = (h :: a) ++ x :: c := by rw [hac]; simp
        _ = d ++ y :: x :: c := by rw [hd]; simp
    have hl : Linked f b (d ++ y :: x :: c) := heq ▸ hr
    have hyx := (linked_cons_cons.mp (linked_append_cons.mp hl).2).1
    exact ⟨y, hmem heq, hyx.2, hyx.1⟩

/-- Taking `x` out of a circle: it is enough that its neighbours `p` and `n` point at each other and
that every other pointer of the remaining nodes is kept. -/
theorem Ring.unlink {f b f' b' : N → Option N} {h x p n : N} {l₁ l₂ a c : List N}
    (hr : Ring f b h (l₁ ++ x :: l₂)) (hnd : (h :: (l₁ ++ x :: l₂)).Nodup)
    (hp : h :: l₁ = a ++ [p]) (hn : l₂ ++ [h] = n :: c)
    (hfp : f' p = some n) (hbn : b' n = some p)
    (hf : ∀ y, y ≠ p → y ≠ x → f' y = f y) (hb : ∀ y, y ≠ n → y ≠ x → b' y = b y) :
    Ring f' b' h (l₁ ++ l₂) := by
  have hl : Linked f b (a ++ p :: x :: n :: c) := by
    have heq : h :: (l₁ ++ x :: l₂ ++ [h]) = a ++ p :: x :: n :: c := by
      calc h :: (l₁ ++ x :: l₂ ++ [h]) = (h :: l₁) ++ x :: (l₂ ++ [h]) := by simp
        _ = a ++ p :: x :: n :: c := by rw [hp, hn]; simp
    exact heq ▸ hr
  obtain ⟨hap, hpxn⟩ := linked_append_cons.mp hl
  have hnc : Linked f b (n :: c) := (linked_cons_cons.mp (linked_cons_cons.mp hpxn).2).2
  -- the nodes before and after `x` in the circle are all different
  have hnd₁ : (a ++ [p]).Nodup := by
    rw [← hp]
    exact hnd.sublist ((List.sublist_append_left l₁ (x :: l₂)).cons_cons h)
  have hnd₂ : (n :: c).Nodup := by
    rw [← hn]
    have hsub : (h :: l₂).Sublist (h :: (l₁ ++ x :: l₂)) :=
      ((List.sublist_cons_self x l₂).trans (List.sublist_append_right l₁ _)).cons_cons h
    exact List.nodup_append_comm.mp (hnd.sublist hsub)
  have hx₁ : x ∉ a ++ [p] := by
    rw [← hp]
    intro hx
    have hd : List.Disjoint (h :: l₁) (x :: l₂) := List.disjoint_of_nodup_append hnd
    exact hd hx List.mem_cons_self
  have hx₂ : x ∉ n :: c := by
    rw [← hn]
    intro hx
    simp only [List.mem_append, List.mem_singleton] at hx
    rcases hx with hx | rfl
    · have hnd' : (x :: l₂).Nodup :=
        hnd.sublist ((List.sublist_append_right l₁ _).trans (List.sublist_cons_self h _))
      exact (List.nodup_cons.mp hnd').1 hx
    · exact (List.nodup_cons.mp hnd).1 (by simp)
  have htail : ∀ y ∈ (a ++ [p]).tail, y ≠ n := by
    rw [← hp]
    rintro y hy rfl
    simp only [List.tail_cons] at hy
    have hy' : y ∈ l₂ ++ [h] := by rw [hn]; simp
    simp only [List.mem_append, List.mem_singleton] at hy'
    rcases hy' with hy' | rfl
    · have hd := List.disjoint_of_nodup_append (List.nodup_cons.mp hnd).2
      exact hd hy (List.mem_cons_of_mem _ hy')
    · exact (List.nodup_cons.mp hnd).1 (by simp [hy])
  have hlast : ∀ y ∈ (n :: c).dropLast, y ≠ p := by
    rw [← hn, List.dropLast_concat]
    rintro y hy rfl
    have hy' : y ∈ h :: l₁ := by rw [hp]; simp
    have hd : List.Disjoint (h :: l₁) (x :: l₂) := List.disjoint_of_nodup_append hnd
    exact hd hy' (List.mem_cons_of_mem _ hy)
  have hres : Linked f' b' (a ++ p :: n :: c) := by
    refine linked_append_cons.mpr ⟨?_, linked_cons_cons.mpr ⟨⟨hfp, hbn⟩, ?_⟩⟩
    · refine hap.congr (fun y hy => hf y ?_ ?_) (fun y hy => hb y (htail y hy) ?_)
      · rw [List.dropLast_concat] at hy
        rintro rfl
        exact (List.nodup_append.mp hnd₁).2.2 y hy y (by simp) rfl
      · rintro rfl
        exact hx₁ (List.dropLast_subset _ hy)
      · rintro rfl
        exact hx₁ (List.mem_of_mem_tail hy)
    · refine hnc.congr (fun y hy => hf y (hlast y hy) ?_) (fun y hy => hb y ?_ ?_)
      · rintro rfl
        exact hx₂ (List.dropLast_subset _ hy)
      · rintro rfl
        exact (List.nodup_cons.mp hnd₂).1 hy
      · rintro rfl
        exact hx₂ (List.mem_cons_of_mem _ hy)
  have heq : a ++ p :: n :: c = h :: (l₁ ++ l₂ ++ [h]) := by
    calc a ++ p :: n :: c = (a ++ [p]) ++ (n :: c) := by simp
      _ = h :: (l₁ ++ l₂ ++ [h]) := by rw [← hp, ← hn]; simp
  unfold Ring
  rwa [← heq]

/-- Adding `e` to a circle just before its head: it is enough that `e` and its two neighbours point
at each other and that every other pointer of the circle is kept. -/
theorem Ring.link {f b f' b' : N → Option N} {h e p : N} {l a : List N}
    (hr : Ring f b h l) (hnd : (h :: l).Nodup) (he : e ∉ h :: l) (hp : h :: l = a ++ [p])
    (hfp : f' p = some e) (hbe : b' e = some p) (hfe : f' e = some h) (hbh : b' h = some e)
    (hf : ∀ y, y ≠ p → y ≠ e → f' y = f y) (hb : ∀ y, y ≠ h → y ≠ e → b' y = b y) :
    Ring f' b' h (l ++ [e]) := by
  have hl : Linked f b (a ++ p :: [h]) := by
    have heq : a ++ p :: [h] = h :: (l ++ [h]) := by
      rw [← List.cons_append, hp, List.append_assoc, List.singleton_append]
    rw [heq]
    exact hr
  have hap := (linked_append_cons.mp hl).1
  have hnd' : (a ++ [p]).Nodup := hp ▸ hnd
  have hea : e ∉ a ++ [p] := hp ▸ he
  have hres : Linked f' b' (a ++ p :: e :: [h]) := by
    refine linked_append_cons.mpr ⟨?_, linked_cons_cons.mpr ⟨⟨hfp, hbe⟩,
      linked_cons_cons.mpr ⟨⟨hfe, hbh⟩, List.isChain_singleton h⟩⟩⟩
    refine hap.congr (fun y hy => hf y ?_ ?_) (fun y hy => hb y ?_ ?_)
    · rw [List.dropLast_concat] at hy
      rintro rfl
      exact (List.nodup_append.mp hnd').2.2 y hy y (by simp) rfl
    · rintro rfl
      exact hea (List.dropLast_subset _ hy)
    · rw [← hp, List.tail_cons] at hy
      rintro rfl
      exact (List.nodup_cons.mp hnd).1 hy
    · rintro rfl
      exact hea (List.mem_of_mem_tail hy)
  have heq : a ++ p :: e :: [h] = h :: (l ++ [e] ++ [h]) := by
    calc a ++ p :: e :: [h] = (a ++ [p]) ++ [e, h] := by simp
      _ = h :: (l ++ [e] ++ [h]) := by rw [← hp]; simp
  unfold Ring
  rwa [← heq]

end Epox

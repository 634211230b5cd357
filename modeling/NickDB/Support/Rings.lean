import Mathlib.Data.List.Cycle
import Mathlib.Logic.Function.Basic

/-!
# Doubly linked rings

Nodes with a link to the next and a link to the previous node; a link that
names no node is `none`.  A ring is a cycle of different nodes in which each
node and the one behind it name each other.  Every change of a ring is made of
*joins*: joining `u` and `v` makes `v` the node behind `u`.  Inserting a node
takes two joins, taking one out takes one, and two rings are spliced by two.

A ring is a `Cycle`, so a statement about the node at the head of a list of
nodes is a statement about every node of the ring.
-/

namespace Rings

variable {α : Type*}

/-- The two link fields of all nodes. -/
@[ext] structure Links (α : Type*) where
  next : α → Option α
  prev : α → Option α

/-- The nodes `u` and `v` name each other: `v` is behind `u`. -/
def Links.Joined (links : Links α) (u v : α) : Prop :=
  links.next u = some v ∧ links.prev v = some u

/-- The links close the nodes of `ring` into a ring, in this order. -/
structure IsRing (links : Links α) (ring : Cycle α) : Prop where
  nodup : ring.Nodup
  joined : ring.Chain links.Joined

/-- Let `v` be the node behind `u`. -/
def Links.join [DecidableEq α] (links : Links α) (u v : α) : Links α where
  next := Function.update links.next u (some v)
  prev := Function.update links.prev v (some u)

variable {links links' : Links α} {ring : Cycle α} {u v a b : α}
  {xs ys : List α}

/-! ## The neighbours of a node -/

/-- Every node of a ring may be taken as its first. -/
theorem ring_rotate (front back : List α) :
    ((front ++ back : List α) : Cycle α) = (back ++ front : List α) :=
  Cycle.coe_eq_coe.mpr List.isRotated_append

/-- The node behind the first node of a ring. -/
theorem IsRing.joined_first (h : IsRing links (u :: xs : List α)) :
    links.Joined u (xs.headD u) := by
  have hchain := (Cycle.chain_coe_cons links.Joined u xs).mp h.joined
  cases xs with
  | nil => exact hchain.rel
  | cons x xs => exact hchain.rel

/-- The node before the first node of a ring. -/
theorem IsRing.joined_last (h : IsRing links (u :: xs : List α)) :
    links.Joined (xs.getLastD u) u := by
  have hchain := (Cycle.chain_ne_nil links.Joined (List.cons_ne_nil u xs)).mp
    h.joined
  rw [List.getLast_eq_getLastD] at hchain
  exact hchain.rel

/-- A ring with the node `u` somewhere in it, read from `u`. -/
theorem IsRing.from_node {front back : List α}
    (h : IsRing links (a :: (front ++ u :: back) : List α)) :
    IsRing links (u :: (back ++ a :: front) : List α) := by
  have hrotate := ring_rotate (a :: front) (u :: back)
  simp only [List.cons_append] at hrotate
  rwa [← hrotate]

theorem IsRing.joined_next {front back : List α}
    (h : IsRing links (a :: (front ++ u :: back) : List α)) :
    links.Joined u (back.headD a) := by
  have hjoined := h.from_node.joined_first
  cases back with
  | nil => exact hjoined
  | cons b back => exact hjoined

theorem IsRing.joined_prev {front back : List α}
    (h : IsRing links (a :: (front ++ u :: back) : List α)) :
    links.Joined (front.getLastD a) u := by
  have hlast : (back ++ a :: front).getLastD u = front.getLastD a := by
    simp [List.getLast?_append, List.getLast?_cons]
  exact hlast ▸ h.from_node.joined_last

/-- The nodes behind the first one are consecutive, up to the first again. -/
theorem IsRing.isChain_behind (h : IsRing links (u :: xs : List α)) :
    (xs ++ [u]).IsChain links.Joined :=
  ((Cycle.chain_coe_cons links.Joined u xs).mp h.joined).tail

/-! ## The ends of a list of nodes -/

theorem headD_mem (hxs : xs ≠ []) : xs.headD u ∈ xs := by
  cases xs with
  | nil => exact absurd rfl hxs
  | cons x xs => exact List.mem_cons_self

theorem headD_mem_cons : xs.headD u ∈ u :: xs := by
  cases xs with
  | nil => exact List.mem_cons_self
  | cons x xs => exact List.mem_cons_of_mem u List.mem_cons_self

theorem getLastD_mem (hxs : xs ≠ []) : xs.getLastD u ∈ xs := by
  cases xs with
  | nil => exact absurd rfl hxs
  | cons x xs =>
      rw [List.getLastD_cons]
      exact List.getLastD_mem_cons

theorem headD_notMem_tail (hxs : xs ≠ []) (h : xs.Nodup) :
    xs.headD u ∉ xs.tail := by
  cases xs with
  | nil => exact absurd rfl hxs
  | cons x xs => exact (List.nodup_cons.mp h).1

theorem getLastD_notMem_dropLast (hxs : xs ≠ []) (h : xs.Nodup) :
    xs.getLastD u ∉ xs.dropLast := by
  obtain rfl | ⟨front, x, rfl⟩ := List.eq_nil_or_concat xs
  · exact absurd rfl hxs
  · rw [List.concat_eq_append, List.nodup_append_comm] at h
    rw [List.concat_eq_append, List.dropLast_concat, List.getLastD_concat]
    exact (List.nodup_cons.mp h).1

theorem head?_behind : (xs ++ [u]).head? = some (xs.headD u) := by
  cases xs with
  | nil => rfl
  | cons x xs => rfl

/-- The node behind `u` comes once in the ring read from it. -/
theorem headD_notMem_tail_append (h : (u :: xs).Nodup) :
    xs.headD u ∉ (xs ++ [u]).tail := by
  cases xs with
  | nil => exact List.not_mem_nil
  | cons x xs =>
      have hnodup := (List.perm_append_singleton u (x :: xs)).nodup_iff.mpr h
      exact (List.nodup_cons.mp hnodup).1

/-! ## Changing the links -/

/-- A ring reads only the links of its nodes. -/
theorem IsRing.congr (h : IsRing links ring)
    (hnext : ∀ x ∈ ring, links'.next x = links.next x)
    (hprev : ∀ x ∈ ring, links'.prev x = links.prev x) :
    IsRing links' ring := by
  refine ⟨h.nodup, ?_⟩
  have hjoined := h.joined
  induction ring using Cycle.induction_on with
  | nil => exact Cycle.Chain.nil _
  | cons u xs _ =>
      rw [Cycle.chain_coe_cons] at hjoined ⊢
      have hmem : ∀ {x}, x ∈ u :: (xs ++ [u]) → x ∈ u :: xs := by
        intro x hx
        simpa [or_comm] using hx
      apply hjoined.imp_of_mem_imp
      intro a b ha hb hab
      exact ⟨(hnext a (hmem ha)).trans hab.1, (hprev b (hmem hb)).trans hab.2⟩

section Join

variable [DecidableEq α]

theorem joined_join : (links.join u v).Joined u v := by
  simp [Links.join, Links.Joined]

/-- A join replaces one link of each of its two nodes. -/
theorem Links.Joined.join (h : links.Joined a b) (hau : a ≠ u) (hbv : b ≠ v) :
    (links.join u v).Joined a b := by
  simpa [Links.join, Links.Joined, hau, hbv] using h

/-- Consecutive nodes stay joined when nothing behind them and nothing before
them is joined anew. -/
theorem isChain_join (h : xs.IsChain links.Joined) (hu : u ∉ xs.dropLast)
    (hv : v ∉ xs.tail) : xs.IsChain (links.join u v).Joined := by
  induction xs with
  | nil => exact .nil
  | cons x xs ih =>
      cases xs with
      | nil => exact .singleton x
      | cons y ys =>
          simp only [List.dropLast_cons_cons, List.mem_cons, not_or] at hu
          simp only [List.tail_cons, List.mem_cons, not_or] at hv
          rw [List.isChain_cons_cons] at h ⊢
          exact ⟨h.1.join (Ne.symm hu.1) (Ne.symm hv.1), ih h.2 hu.2 hv.2⟩

/-- A ring that has neither of the joined nodes keeps its links. -/
theorem IsRing.join_of_notMem (h : IsRing links ring) (hu : u ∉ ring)
    (hv : v ∉ ring) : IsRing (links.join u v) ring := by
  apply h.congr
  · intro x hx
    exact Function.update_of_ne (ne_of_mem_of_not_mem hx hu) _ _
  · intro x hx
    exact Function.update_of_ne (ne_of_mem_of_not_mem hx hv) _ _

/-- A node joined to itself is a ring. -/
theorem isRing_join_self : IsRing (links.join u u) ([u] : List α) := by
  refine ⟨List.nodup_singleton u, ?_⟩
  rw [Cycle.chain_singleton]
  exact joined_join

/-- A new node is inserted behind the first node of a ring. -/
theorem IsRing.insert (h : IsRing links (u :: xs : List α)) (hv : v ∉ u :: xs) :
    IsRing ((links.join v (xs.headD u)).join u v) (u :: v :: xs : List α) := by
  have hnodup : (u :: xs).Nodup := h.nodup
  have hvu : v ≠ u := List.ne_of_not_mem_cons hv
  have hvxs : v ∉ xs := List.not_mem_of_not_mem_cons hv
  have hbehind : v ∉ xs ++ [u] := fun hmem =>
    hv ((List.perm_append_singleton u xs).mem_iff.mp hmem)
  refine ⟨?_, ?_⟩
  · exact (List.Perm.swap u v xs).nodup_iff.mp
      (List.nodup_cons.mpr ⟨hv, hnodup⟩)
  rw [Cycle.chain_coe_cons, List.cons_append]
  refine .cons_cons joined_join (List.isChain_cons.mpr ⟨?_, ?_⟩)
  · intro x hx
    rw [head?_behind] at hx
    obtain rfl := Option.some.inj hx
    have hx : xs.headD u ∈ xs ++ [u] := List.mem_of_mem_head? head?_behind
    exact joined_join.join hvu (ne_of_mem_of_not_mem hx hbehind)
  · -- the nodes that were behind `u` have their old neighbours
    apply isChain_join
    · apply isChain_join h.isChain_behind
      · rwa [List.dropLast_concat]
      · exact headD_notMem_tail_append hnodup
    · rw [List.dropLast_concat]
      exact (List.nodup_cons.mp hnodup).1
    · exact fun hmem => hbehind (List.mem_of_mem_tail hmem)

/-- The first node of a ring is taken out by joining its neighbours. -/
theorem IsRing.remove (h : IsRing links (u :: xs : List α)) (hxs : xs ≠ []) :
    IsRing (links.join (xs.getLastD u) (xs.headD u)) (xs : List α) := by
  have hnodup : (u :: xs).Nodup := h.nodup
  have hchain := (Cycle.chain_coe_cons links.Joined u xs).mp h.joined
  refine ⟨(List.nodup_cons.mp hnodup).2, ?_⟩
  rw [Cycle.chain_ne_nil _ hxs]
  cases xs with
  | nil => exact absurd rfl hxs
  | cons x xs =>
      have hlast : (x :: xs).getLast hxs = (x :: xs).getLastD u := by
        rw [List.getLast_eq_getLastD, List.getLastD_cons]
      have hxsnodup := (List.nodup_cons.mp hnodup).2
      rw [hlast]
      refine .cons_cons joined_join ?_
      apply isChain_join (List.IsChain.left_of_append hchain.tail)
      · exact getLastD_notMem_dropLast hxs hxsnodup
      · exact headD_notMem_tail hxs hxsnodup

/-- The nodes behind the first node of one ring are spliced in behind the first
node of another ring. -/
theorem IsRing.splice (hu : IsRing links (u :: xs : List α))
    (hv : IsRing links (v :: ys : List α)) (hys : ys ≠ [])
    (hdisjoint : (u :: xs).Disjoint (v :: ys)) :
    IsRing ((links.join u (ys.headD v)).join (ys.getLastD v) (xs.headD u))
      (u :: (ys ++ xs) : List α) := by
  have hnodup : (u :: xs).Nodup := hu.nodup
  have hnodup' : ys.Nodup := (List.nodup_cons.mp hv.nodup).2
  have hfirst : ys.headD v ∈ ys := headD_mem hys
  have hlast : ys.getLastD v ∈ ys := getLastD_mem hys
  have hbehind : ∀ {a}, a ∈ xs ++ [u] → a ∈ u :: xs :=
    fun ha => (List.perm_append_singleton u xs).mem_iff.mp ha
  have hat : xs.headD u ∈ u :: xs := headD_mem_cons
  have hapart : ∀ {a b}, a ∈ u :: xs → b ∈ ys → a ≠ b := by
    intro a b ha hb hab
    exact hdisjoint ha (List.mem_cons_of_mem v (hab ▸ hb))
  refine ⟨?_, ?_⟩
  · have happend : (u :: xs ++ ys).Nodup :=
      List.nodup_append'.mpr ⟨hnodup, hnodup', fun a ha hb => hapart ha hb rfl⟩
    exact (List.Perm.cons u List.perm_append_comm).nodup_iff.mp happend
  have hspliced : ys.IsChain ((links.join u (ys.headD v)).join (ys.getLastD v)
      (xs.headD u)).Joined := by
    apply isChain_join
    · apply isChain_join (List.IsChain.left_of_append hv.isChain_behind)
      · exact fun hmem =>
          hapart List.mem_cons_self (List.mem_of_mem_dropLast hmem) rfl
      · exact headD_notMem_tail hys hnodup'
    · exact getLastD_notMem_dropLast hys hnodup'
    · exact fun hmem => hapart hat (List.mem_of_mem_tail hmem) rfl
  have hkept : (xs ++ [u]).IsChain ((links.join u (ys.headD v)).join
      (ys.getLastD v) (xs.headD u)).Joined := by
    apply isChain_join
    · apply isChain_join hu.isChain_behind
      · rw [List.dropLast_concat]
        exact (List.nodup_cons.mp hnodup).1
      · exact fun hmem =>
          hapart (hbehind (List.mem_of_mem_tail hmem)) hfirst rfl
    · rw [List.dropLast_concat]
      exact fun hmem => hapart (List.mem_cons_of_mem u hmem) hlast rfl
    · exact headD_notMem_tail_append hnodup
  rw [Cycle.chain_coe_cons, List.append_assoc]
  -- `u`, then the spliced nodes, then the nodes that were behind `u`
  cases ys with
  | nil => exact absurd rfl hys
  | cons y ys =>
      refine .cons_cons (joined_join.join (hapart List.mem_cons_self hlast)
        (hapart hat List.mem_cons_self).symm) ?_
      apply hspliced.append hkept
      intro a ha b hb
      have hlastEq : (y :: ys).getLastD v = a := by
        rw [List.getLastD_eq_getLast?, Option.mem_def.mp ha, Option.getD_some]
      have hatEq : xs.headD u = b :=
        Option.some.inj (head?_behind.symm.trans hb)
      rw [hlastEq, hatEq]
      exact joined_join

end Join

end Rings

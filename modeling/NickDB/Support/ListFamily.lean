import Mathlib.Data.List.Nodup
import Mathlib.Logic.Function.Basic

/-!
# Families of lists

Some nodes head a list of other nodes, and no node is in two lists or twice in
one.  Two changes build all others: a node is *detached* from the list it is in,
which dissolves the list it heads, and a head is *assigned* a list of nodes that
are in no other list.
-/

namespace ListFamily

variable {α : Type*}

/-- The list of each head. -/
abbrev Entries (α : Type*) := α → Option (List α)

/-- The node heads a list or is an entry of one. -/
def Holds (entries : Entries α) (u : α) : Prop :=
  ∃ h xs, entries h = some xs ∧ u ∈ h :: xs

/-- Every node is in at most one list, and there once. -/
structure Separated (entries : Entries α) : Prop where
  nodup : ∀ {h xs}, entries h = some xs → (h :: xs).Nodup
  separate : ∀ {h k xs ys u}, entries h = some xs → entries k = some ys →
    u ∈ h :: xs → u ∈ k :: ys → h = k

theorem separated_none : Separated (fun _ : α => none) where
  nodup := fun h => nomatch h
  separate := fun h => nomatch h

/-- The nodes of a list are in no other list. -/
def Fresh (entries : Entries α) (h : α) (xs : List α) : Prop :=
  ∀ k ys, k ≠ h → entries k = some ys → ∀ u ∈ h :: xs, u ∉ k :: ys

/-- A head's own list, with nodes added that are in no list, is in no other
list. -/
theorem Separated.fresh_of_own {entries : Entries α} {h : α} {xs ys : List α}
    (hs : Separated entries) (hxs : entries h = some xs)
    (hys : ∀ u ∈ ys, u ∈ xs ∨ ¬Holds entries u) : Fresh entries h ys := by
  intro k zs hk hzs u hu huk
  have hholds : Holds entries u := ⟨k, zs, hzs, huk⟩
  have hmem : u ∈ h :: xs := by
    rcases List.mem_cons.mp hu with rfl | hu
    · exact List.mem_cons_self
    · rcases hys u hu with hmem | hnot
      · exact List.mem_cons_of_mem h hmem
      · exact absurd hholds hnot
  exact hk (hs.separate hzs hxs huk hmem)

/-- The entries of a head, none if it heads no list. -/
def entriesOf (entries : Entries α) (h : α) : List α := (entries h).getD []

theorem entriesOf_eq {entries : Entries α} {h : α} {xs : List α}
    (hxs : entries h = some xs) : entriesOf entries h = xs := by
  rw [entriesOf, hxs, Option.getD_some]

variable [DecidableEq α]

/-- The node is taken out of the list it is in, and heads none. -/
def detach (entries : Entries α) (u : α) : Entries α := fun h =>
  if h = u then none else (entries h).map (·.erase u)

/-- The head gets a new list. -/
def assign (entries : Entries α) (h : α) (xs : List α) : Entries α :=
  Function.update entries h (some xs)

variable {entries : Entries α} {h k u v : α} {xs ys : List α}

@[simp] theorem assign_self : assign entries h xs h = some xs := by
  rw [assign, Function.update_self]

theorem assign_of_ne (hne : k ≠ h) : assign entries h xs k = entries k := by
  rw [assign, Function.update_of_ne hne]

theorem detach_eq_some_iff :
    detach entries u h = some ys ↔
      h ≠ u ∧ ∃ xs, entries h = some xs ∧ xs.erase u = ys := by
  rw [detach]
  by_cases hu : h = u
  · simp [hu]
  · simp [hu, Option.map_eq_some_iff]

/-- A detached node is in no list. -/
theorem Separated.not_holds_detach (hs : Separated entries) :
    ¬Holds (detach entries u) u := by
  intro ⟨h, ys, hys, hmem⟩
  obtain ⟨hne, xs, hxs, rfl⟩ := detach_eq_some_iff.mp hys
  have hnodup := (List.nodup_cons.mp (hs.nodup hxs)).2
  rcases List.mem_cons.mp hmem with heq | hmem
  · exact hne heq.symm
  · exact (hnodup.mem_erase_iff.mp hmem).1 rfl

/-- Detaching adds no node to a list. -/
theorem holds_of_detach (hv : Holds (detach entries u) v) :
    Holds entries v := by
  obtain ⟨h, ys, hys, hmem⟩ := hv
  obtain ⟨-, xs, hxs, rfl⟩ := detach_eq_some_iff.mp hys
  exact ⟨h, xs, hxs, List.cons_subset_cons h (List.erase_subset) hmem⟩

/-- A list without the detached node keeps its entries. -/
theorem detach_of_notMem (hxs : entries h = some xs) (hu : u ∉ h :: xs) :
    detach entries u h = some xs := by
  apply detach_eq_some_iff.mpr
  refine ⟨fun hhu => hu (hhu ▸ List.mem_cons_self), xs, hxs, ?_⟩
  exact List.erase_of_not_mem (List.not_mem_of_not_mem_cons hu)

theorem Separated.detach (hs : Separated entries) :
    Separated (detach entries u) where
  nodup := by
    intro h ys hys
    obtain ⟨-, xs, hxs, rfl⟩ := detach_eq_some_iff.mp hys
    exact (hs.nodup hxs).sublist (List.erase_sublist.cons_cons h)
  separate := by
    intro h k ys zs v hys hzs hvh hvk
    obtain ⟨-, xs, hxs, rfl⟩ := detach_eq_some_iff.mp hys
    obtain ⟨-, xs', hxs', rfl⟩ := detach_eq_some_iff.mp hzs
    exact hs.separate hxs hxs' (List.cons_subset_cons h List.erase_subset hvh)
      (List.cons_subset_cons k List.erase_subset hvk)

theorem Separated.assign (hs : Separated entries) (hnodup : (h :: xs).Nodup)
    (hfresh : Fresh entries h xs) : Separated (assign entries h xs) where
  nodup := by
    intro k ys hys
    by_cases hk : k = h
    · subst hk
      rw [assign_self] at hys
      obtain rfl := Option.some.inj hys
      exact hnodup
    · rw [assign_of_ne hk] at hys
      exact hs.nodup hys
  separate := by
    intro j k ys zs v hys hzs hvj hvk
    by_cases hj : j = h
    · subst hj
      rw [assign_self] at hys
      obtain rfl := Option.some.inj hys
      by_contra hk
      rw [assign_of_ne (Ne.symm hk)] at hzs
      exact hfresh k zs (Ne.symm hk) hzs v hvj hvk
    · rw [assign_of_ne hj] at hys
      by_cases hk : k = h
      · subst hk
        rw [assign_self] at hzs
        obtain rfl := Option.some.inj hzs
        exact absurd hvj (hfresh j ys hj hys v hvk)
      · rw [assign_of_ne hk] at hzs
        exact hs.separate hys hzs hvj hvk

theorem holds_assign (hv : Holds (assign entries h xs) v) :
    v ∈ h :: xs ∨ Holds entries v := by
  obtain ⟨k, ys, hys, hmem⟩ := hv
  by_cases hk : k = h
  · subst hk
    rw [assign_self] at hys
    obtain rfl := Option.some.inj hys
    exact Or.inl hmem
  · rw [assign_of_ne hk] at hys
    exact Or.inr ⟨k, ys, hys, hmem⟩

/-! ## Adding a node and splicing two lists -/

/-- The node becomes the first entry. -/
def pushEntry (entries : Entries α) (u h : α) : Entries α :=
  assign (detach entries u) h (u :: entriesOf (detach entries u) h)

/-- The node becomes the last entry. -/
def appendEntry (entries : Entries α) (u h : α) : Entries α :=
  assign (detach entries u) h (entriesOf (detach entries u) h ++ [u])

/-- The entries of the list `k` come before those of `h`, and `k` heads no list
any more. -/
def spliceEntries (entries : Entries α) (k h : α) : Entries α :=
  assign (detach entries k) h (entriesOf entries k ++ entriesOf entries h)

/-- A head other than the detached node still heads a list. -/
theorem detach_entriesOf (hne : u ≠ h) (hh : ∃ xs, entries h = some xs) :
    detach entries u h = some (entriesOf (detach entries u) h) := by
  obtain ⟨xs, hxs⟩ := hh
  have hbase : detach entries u h = some (xs.erase u) :=
    detach_eq_some_iff.mpr ⟨hne.symm, xs, hxs, rfl⟩
  rw [entriesOf_eq hbase, hbase]

/-- Adding a detached node to a list. -/
theorem separated_assign_detached (hs : Separated entries)
    (hxs : detach entries u h = some xs) (hys : ys.Perm (u :: xs)) :
    Separated (assign (detach entries u) h ys) := by
  have hu : ¬Holds (detach entries u) u := hs.not_holds_detach
  have hnotMem : u ∉ h :: xs := fun hmem => hu ⟨h, xs, hxs, hmem⟩
  apply hs.detach.assign
  · have hnodup := List.nodup_cons.mpr ⟨hnotMem, hs.detach.nodup hxs⟩
    exact ((hys.cons h).trans (List.Perm.swap u h xs)).nodup_iff.mpr hnodup
  · apply hs.detach.fresh_of_own hxs
    intro v hv
    rcases List.mem_cons.mp (hys.mem_iff.mp hv) with rfl | hv
    · exact Or.inr hu
    · exact Or.inl hv

/-- Only the added node is new to the lists. -/
theorem holds_assign_detached (hxs : detach entries u h = some xs)
    (hys : ys.Perm (u :: xs)) (hv : Holds (assign (detach entries u) h ys) v) :
    v = u ∨ Holds entries v := by
  rcases holds_assign hv with hmem | hheld
  · rcases List.mem_cons.mp ((hys.cons h).mem_iff.mp hmem) with rfl | hmem
    · exact Or.inr (holds_of_detach ⟨v, xs, hxs, List.mem_cons_self⟩)
    · rcases List.mem_cons.mp hmem with rfl | hmem
      · exact Or.inl rfl
      · exact Or.inr (holds_of_detach ⟨h, xs, hxs, List.mem_cons_of_mem h hmem⟩)
  · exact Or.inr (holds_of_detach hheld)

theorem separated_pushEntry (hs : Separated entries) (hne : u ≠ h)
    (hh : ∃ xs, entries h = some xs) : Separated (pushEntry entries u h) :=
  separated_assign_detached hs (detach_entriesOf hne hh) (List.Perm.refl _)

theorem separated_appendEntry (hs : Separated entries) (hne : u ≠ h)
    (hh : ∃ xs, entries h = some xs) : Separated (appendEntry entries u h) :=
  separated_assign_detached hs (detach_entriesOf hne hh)
    (List.perm_append_singleton _ _)

theorem holds_of_pushEntry (hne : u ≠ h) (hh : ∃ xs, entries h = some xs)
    (hv : Holds (pushEntry entries u h) v) : v = u ∨ Holds entries v :=
  holds_assign_detached (detach_entriesOf hne hh) (List.Perm.refl _) hv

theorem holds_of_appendEntry (hne : u ≠ h) (hh : ∃ xs, entries h = some xs)
    (hv : Holds (appendEntry entries u h) v) : v = u ∨ Holds entries v :=
  holds_assign_detached (detach_entriesOf hne hh)
    (List.perm_append_singleton _ _) hv

/-- The entries of a list whose head is detached are in no list. -/
theorem not_holds_detach_head (hs : Separated entries)
    (hys : entries k = some ys) (hv : v ∈ ys) :
    ¬Holds (detach entries k) v := by
  intro ⟨j, zs', hzs', hmem⟩
  obtain ⟨hjk, zs, hzs, rfl⟩ := detach_eq_some_iff.mp hzs'
  exact hjk (hs.separate hzs hys
    (List.cons_subset_cons j List.erase_subset hmem)
    (List.mem_cons_of_mem k hv))

theorem separated_spliceEntries (hs : Separated entries) (hne : k ≠ h)
    (hys : entries k = some ys) (hxs : entries h = some xs) :
    Separated (spliceEntries entries k h) := by
  have hk : k ∉ h :: xs := fun hmem =>
    hne (hs.separate hys hxs List.mem_cons_self hmem)
  have hbase : detach entries k h = some xs := detach_of_notMem hxs hk
  have hapart : (h :: xs).Disjoint ys := fun v hvh hv =>
    not_holds_detach_head hs hys hv ⟨h, xs, hbase, hvh⟩
  rw [spliceEntries, entriesOf_eq hys, entriesOf_eq hxs]
  apply hs.detach.assign
  · have hnodup : (h :: xs ++ ys).Nodup :=
      (hs.nodup hxs).append (List.nodup_cons.mp (hs.nodup hys)).2 hapart
    exact (List.Perm.cons h List.perm_append_comm).nodup_iff.mp hnodup
  · apply hs.detach.fresh_of_own hbase
    intro v hv
    rcases List.mem_append.mp hv with hv | hv
    · exact Or.inr (not_holds_detach_head hs hys hv)
    · exact Or.inl hv

/-- The head of a list that was spliced into another is in no list. -/
theorem not_holds_spliceEntries (hs : Separated entries) (hne : k ≠ h)
    (hys : entries k = some ys) (hxs : entries h = some xs) :
    ¬Holds (spliceEntries entries k h) k := by
  intro hk
  rw [spliceEntries, entriesOf_eq hys, entriesOf_eq hxs] at hk
  rcases holds_assign hk with hmem | hheld
  · have hxsMem : k ∉ h :: xs := fun hmem =>
      hne (hs.separate hys hxs List.mem_cons_self hmem)
    have hysMem : k ∉ ys := (List.nodup_cons.mp (hs.nodup hys)).1
    simp only [List.mem_cons, List.mem_append, not_or] at hmem hxsMem
    tauto
  · exact hs.not_holds_detach hheld

theorem holds_of_spliceEntries (hys : entries k = some ys)
    (hxs : entries h = some xs) (hv : Holds (spliceEntries entries k h) v) :
    Holds entries v := by
  rw [spliceEntries, entriesOf_eq hys, entriesOf_eq hxs] at hv
  rcases holds_assign hv with hmem | hheld
  · rcases List.mem_cons.mp hmem with rfl | hmem
    · exact ⟨v, xs, hxs, List.mem_cons_self⟩
    · rcases List.mem_append.mp hmem with hmem | hmem
      · exact ⟨k, ys, hys, List.mem_cons_of_mem k hmem⟩
      · exact ⟨h, xs, hxs, List.mem_cons_of_mem h hmem⟩
  · exact holds_of_detach hheld

/-- A node that is in no list of another head may head an empty list. -/
theorem separated_assign_nil (hs : Separated entries)
    (hu : ∀ k ys, k ≠ u → entries k = some ys → u ∉ k :: ys) :
    Separated (assign entries u []) := by
  apply hs.assign (List.nodup_singleton u)
  intro k ys hk hys v hv
  rw [List.mem_singleton.mp hv]
  exact hu k ys hk hys

end ListFamily

import NickDB.Support.ListFamily
import NickDB.Support.Rings

/-!
# Families of rings

Links that close each list of a family into a ring with its head.  Detaching a
node, adding one to either end of a list and splicing two lists are joins.
-/

namespace ListFamily

open Rings

variable {α : Type*}

/-- The links close every list, with its head, into a ring. -/
def RingsOf (links : Links α) (entries : Entries α) : Prop :=
  ∀ h xs, entries h = some xs → IsRing links (h :: xs : List α)

variable {links links' : Links α} {entries : Entries α} {h k u : α}
  {xs ys front back : List α}

theorem headD_mem_behind : back.headD h ∈ h :: (front ++ u :: back) := by
  have hback : h :: back ⊆ h :: (front ++ u :: back) := by
    apply List.cons_subset_cons
    intro x hx
    simp [hx]
  exact hback headD_mem_cons

/-- The node behind a node of a list is in the list. -/
theorem RingsOf.joined_mem (hrings : RingsOf links entries)
    (hxs : entries h = some xs) (hu : u ∈ h :: xs) :
    ∃ v ∈ h :: xs, links.Joined u v := by
  have hring := hrings h xs hxs
  rcases List.mem_cons.mp hu with rfl | hu
  · exact ⟨_, headD_mem_cons, hring.joined_first⟩
  · obtain ⟨front, back, rfl⟩ := List.append_of_mem hu
    exact ⟨_, headD_mem_behind, hring.joined_next⟩

/-- The links of a node that is in no list may change. -/
theorem RingsOf.congr (hrings : RingsOf links entries) (hu : ¬Holds entries u)
    (hnext : ∀ x, x ≠ u → links'.next x = links.next x)
    (hprev : ∀ x, x ≠ u → links'.prev x = links.prev x) :
    RingsOf links' entries := by
  intro h xs hxs
  have hne : ∀ x ∈ ((h :: xs : List α) : Cycle α), x ≠ u := by
    intro x hx hxu
    exact hu ⟨h, xs, hxs, hxu ▸ Cycle.mem_coe_iff.mp hx⟩
  exact (hrings h xs hxs).congr (fun x hx => hnext x (hne x hx))
    (fun x hx => hprev x (hne x hx))

variable [DecidableEq α]

/-- Assigning a list to a head, when its ring is there and the other rings are
not disturbed. -/
theorem RingsOf.assign (hnew : IsRing links' (h :: xs : List α))
    (hsame : ∀ {k ys}, k ≠ h → entries k = some ys →
      IsRing links' (k :: ys : List α)) :
    RingsOf links' (assign entries h xs) := by
  intro k ys hys
  by_cases hk : k = h
  · subst hk
    rw [assign_self] at hys
    obtain rfl := Option.some.inj hys
    exact hnew
  · rw [assign_of_ne hk] at hys
    exact hsame hk hys

/-- A join in the list of `h` leaves the rings of the other lists. -/
theorem RingsOf.join_other {p n : α} (hrings : RingsOf links entries)
    (hs : Separated entries) (hxs : entries h = some xs)
    (hp : p ∈ h :: xs ∨ ¬Holds entries p) (hn : n ∈ h :: xs ∨ ¬Holds entries n)
    (hk : k ≠ h) (hys : entries k = some ys) :
    IsRing (links.join p n) (k :: ys : List α) := by
  have hnotMem : ∀ {v}, v ∈ h :: xs ∨ ¬Holds entries v → v ∉ k :: ys := by
    intro v hv hmem
    rcases hv with hv | hv
    · exact hk (hs.separate hys hxs hmem hv)
    · exact hv ⟨k, ys, hys, hmem⟩
  exact (hrings _ _ hys).join_of_notMem (hnotMem hp) (hnotMem hn)

/-! ## Detaching a node -/

/-- An entry is taken out by joining its neighbours. -/
theorem RingsOf.detach_entry (hrings : RingsOf links entries)
    (hs : Separated entries) (hxs : entries h = some (front ++ u :: back)) :
    RingsOf (links.join (front.getLastD h) (back.headD h))
      (detach entries u) := by
  intro k ys hys
  obtain ⟨-, zs, hzs, rfl⟩ := detach_eq_some_iff.mp hys
  have hnodup : (h :: (front ++ u :: back)).Nodup := hs.nodup hxs
  by_cases hk : k = h
  · subst hk
    obtain rfl := Option.some.inj (hxs.symm.trans hzs)
    have hfront : u ∉ front := by
      intro hmem
      have hentries := (List.nodup_cons.mp hnodup).2
      exact List.disjoint_of_nodup_append hentries hmem List.mem_cons_self
    rw [List.erase_append_right _ hfront, List.erase_cons_head]
    have hne : back ++ k :: front ≠ [] := by simp
    have hring := (hrings _ _ hxs).from_node.remove hne
    have hlast : (back ++ k :: front).getLastD u = front.getLastD k := by
      simp [List.getLast?_append, List.getLast?_cons]
    have hhead : (back ++ k :: front).headD u = back.headD k := by
      cases back with
      | nil => rfl
      | cons x back => rfl
    rw [hlast, hhead] at hring
    rwa [ring_rotate back (k :: front)] at hring
  · have hu : u ∉ k :: zs := fun hmem =>
      hk (hs.separate hzs hxs hmem (by simp))
    rw [List.erase_of_not_mem (List.not_mem_of_not_mem_cons hu)]
    apply hrings.join_other hs hxs _ _ hk hzs
    · left
      exact List.cons_subset_cons h (List.subset_append_left _ _)
        List.getLastD_mem_cons
    · exact Or.inl headD_mem_behind

/-- A node that is an entry of a list, or heads an empty one, has two
neighbours, and joining them detaches it. -/
theorem RingsOf.detach (hrings : RingsOf links entries) (hs : Separated entries)
    (hu : entries u = some [] ∨ ∃ h xs, entries h = some xs ∧ u ∈ xs) :
    ∃ p n, links.prev u = some p ∧ links.next u = some n ∧
      Holds entries p ∧ Holds entries n ∧
      RingsOf (links.join p n) (detach entries u) := by
  rcases hu with hu | ⟨h, xs, hxs, hmem⟩
  · have hring := hrings u [] hu
    have hheld : Holds entries u := ⟨u, [], hu, List.mem_cons_self⟩
    refine ⟨u, u, hring.joined_last.2, hring.joined_first.1, hheld, hheld, ?_⟩
    intro k ys hys
    obtain ⟨hk, zs, hzs, rfl⟩ := detach_eq_some_iff.mp hys
    have hnotMem : u ∉ zs := fun hmem =>
      hk (hs.separate hzs hu (List.mem_cons_of_mem k hmem) List.mem_cons_self)
    rw [List.erase_of_not_mem hnotMem]
    exact hrings.join_other hs hu (Or.inl List.mem_cons_self)
      (Or.inl List.mem_cons_self) hk hzs
  · obtain ⟨front, back, rfl⟩ := List.append_of_mem hmem
    have hjoined := (hrings _ _ hxs).joined_prev
    have hbehind := (hrings _ _ hxs).joined_next
    exact ⟨_, _, hjoined.2, hbehind.1,
      ⟨h, _, hxs, List.cons_subset_cons h (List.subset_append_left _ _)
        List.getLastD_mem_cons⟩,
      ⟨h, _, hxs, headD_mem_behind⟩, hrings.detach_entry hs hxs⟩

/-- A node that is in no list, or heads an empty one, is detached without any
change of the links. -/
theorem RingsOf.detach_alone (hrings : RingsOf links entries)
    (hu : ∀ h xs, entries h = some xs → u ∈ h :: xs → h = u ∧ xs = []) :
    RingsOf links (ListFamily.detach entries u) := by
  intro k ys hys
  obtain ⟨hk, zs, hzs, rfl⟩ := detach_eq_some_iff.mp hys
  have hnotMem : u ∉ k :: zs := fun hmem => hk (hu k zs hzs hmem).1
  rw [List.erase_of_not_mem (List.not_mem_of_not_mem_cons hnotMem)]
  exact hrings k zs hzs

/-! ## Adding a node -/

theorem RingsOf.init (hrings : RingsOf links entries)
    (hu : ∀ h xs, entries h = some xs → u ∉ xs) :
    RingsOf (links.join u u) (ListFamily.assign entries u []) := by
  apply RingsOf.assign isRing_join_self
  intro k ys hk hys
  have hnotMem : u ∉ k :: ys := by
    rw [List.mem_cons, not_or]
    exact ⟨Ne.symm hk, hu k ys hys⟩
  exact (hrings _ _ hys).join_of_notMem hnotMem hnotMem

/-- A node that is in no list is added behind the head. -/
theorem RingsOf.push (hrings : RingsOf links entries) (hs : Separated entries)
    (hxs : entries h = some xs) (hu : ¬Holds entries u) :
    RingsOf ((links.join u (xs.headD h)).join h u)
      (ListFamily.assign entries h (u :: xs)) := by
  apply RingsOf.assign
  · exact (hrings _ _ hxs).insert fun hmem => hu ⟨h, xs, hxs, hmem⟩
  intro k ys hk hys
  have hnotMem : u ∉ k :: ys := fun hmem => hu ⟨k, ys, hys, hmem⟩
  have hring := hrings.join_other hs hxs (Or.inr hu) (Or.inl headD_mem_cons)
    hk hys
  refine hring.join_of_notMem (fun hmem => ?_) hnotMem
  exact hk (hs.separate hys hxs hmem List.mem_cons_self)

/-- A node that is in no list is added before the head. -/
theorem RingsOf.append (hrings : RingsOf links entries) (hs : Separated entries)
    (hxs : entries h = some xs) (hu : ¬Holds entries u) :
    RingsOf ((links.join u h).join (xs.getLastD h) u)
      (ListFamily.assign entries h (xs ++ [u])) := by
  apply RingsOf.assign
  · obtain rfl | ⟨front, p, rfl⟩ := List.eq_nil_or_concat xs
    · exact (hrings _ _ hxs).insert fun hmem => hu ⟨h, [], hxs, hmem⟩
    · rw [List.concat_eq_append] at hxs ⊢
      have hring : IsRing links (p :: h :: front : List α) := by
        have hrotate := ring_rotate (h :: front) [p]
        simp only [List.cons_append, List.nil_append] at hrotate
        exact hrotate ▸ hrings _ _ hxs
      have hnotMem : u ∉ p :: h :: front := by
        intro hmem
        have hperm := List.perm_append_singleton p (h :: front)
        exact hu ⟨h, _, hxs, hperm.mem_iff.mpr hmem⟩
      have hinsert := hring.insert hnotMem
      have hrotate := ring_rotate [p, u] (h :: front)
      simp only [List.cons_append, List.nil_append] at hrotate
      rw [hrotate] at hinsert
      simpa using hinsert
  intro k ys hk hys
  have hnotMem : u ∉ k :: ys := fun hmem => hu ⟨k, ys, hys, hmem⟩
  have hring := hrings.join_other hs hxs (Or.inr hu)
    (Or.inl List.mem_cons_self) hk hys
  refine hring.join_of_notMem (fun hmem => ?_) hnotMem
  exact hk (hs.separate hys hxs hmem List.getLastD_mem_cons)

/-! ## Splicing two lists -/

theorem RingsOf.splice (hrings : RingsOf links entries) (hs : Separated entries)
    (hxs : entries h = some xs) (hys : entries k = some ys) (hkh : k ≠ h)
    (hne : ys ≠ []) :
    RingsOf ((links.join h (ys.headD k)).join (ys.getLastD k) (xs.headD h))
      (ListFamily.assign (ListFamily.detach entries k) h (ys ++ xs)) := by
  have hapart : ∀ {j zs i ws u}, entries j = some zs → entries i = some ws →
      i ≠ j → u ∈ i :: ws → u ∉ j :: zs := fun hzs hws hij hui huj =>
    hij (hs.separate hws hzs hui huj)
  apply RingsOf.assign
  · apply (hrings _ _ hxs).splice (hrings _ _ hys) hne
    intro u hu
    exact hapart hys hxs hkh.symm hu
  intro j zs' hj hzs'
  obtain ⟨hjk, zs, hzs, rfl⟩ := detach_eq_some_iff.mp hzs'
  have hk : k ∉ j :: zs := hapart hzs hys (Ne.symm hjk) List.mem_cons_self
  rw [List.erase_of_not_mem (List.not_mem_of_not_mem_cons hk)]
  have hfirst : ys.headD k ∈ k :: ys := List.mem_cons_of_mem k (headD_mem hne)
  have hlast : ys.getLastD k ∈ k :: ys := List.getLastD_mem_cons
  have hring : IsRing (links.join h (ys.headD k)) (j :: zs : List α) :=
    (hrings _ _ hzs).join_of_notMem (hapart hzs hxs (Ne.symm hj) List.mem_cons_self)
      (hapart hzs hys (Ne.symm hjk) hfirst)
  exact hring.join_of_notMem (hapart hzs hys (Ne.symm hjk) hlast)
    (hapart hzs hxs (Ne.symm hj) headD_mem_cons)

end ListFamily

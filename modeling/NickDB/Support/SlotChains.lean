import Mathlib.Data.List.Nodup
import Mathlib.Logic.Function.Basic

/-!
# Chains of slots

A slot holds a node or is empty.  Some slots belong to heads, and every node has
one; a node also knows the slot that holds it.  A chain starts at a slot and
leads through the slots of its nodes to an empty one.  Since a node is found by
the slot that holds it, inserting and removing are the same at a head as behind
a node: both *put* something into a slot.
-/

namespace SlotChains

variable {κ ν : Type*}

/-- The slot of a head or of a node. -/
abbrev Slot (κ ν : Type*) := κ ⊕ ν

/-- What each slot holds, and the slot each node was put into; `none` when the
word stored there is no node, nor empty, nor a slot. -/
@[ext] structure Slots (κ ν : Type*) where
  load : Slot κ ν → Option (Option ν)
  back : ν → Option (Slot κ ν)

/-- The chain from a slot leads through these nodes. -/
def Chain (slots : Slots κ ν) : Slot κ ν → List ν → Prop
  | s, [] => slots.load s = some none
  | s, x :: xs =>
      slots.load s = some (some x) ∧ slots.back x = some s ∧
        Chain slots (.inr x) xs

/-- The slot behind the nodes of a chain that starts at `s`. -/
def endSlot (s : Slot κ ν) : List ν → Slot κ ν
  | [] => s
  | x :: xs => endSlot (.inr x) xs

/-- Put a node, or nothing, into a slot. -/
def Slots.put [DecidableEq κ] [DecidableEq ν] (slots : Slots κ ν)
    (s : Slot κ ν) (content : Option ν) : Slots κ ν where
  load := Function.update slots.load s (some content)
  back := match content with
    | none => slots.back
    | some x => Function.update slots.back x (some s)

variable {slots slots' : Slots κ ν} {s t : Slot κ ν} {u x : ν}
  {xs front rest : List ν}

theorem Chain.load_start (h : Chain slots s xs) :
    slots.load s = some xs.head? := by
  cases xs with
  | nil => exact h
  | cons x xs => exact h.1

/-- The chain behind some of its nodes. -/
theorem Chain.behind (h : Chain slots s (front ++ rest)) :
    Chain slots (endSlot s front) rest := by
  induction front generalizing s with
  | nil => exact h
  | cons x front ih => exact ih h.2.2

/-- A node of a chain was put into the slot before it. -/
theorem Chain.back_eq (h : Chain slots s (front ++ x :: rest)) :
    slots.back x = some (endSlot s front) := h.behind.2.1

/-- A chain reads the slots of its nodes, and where its nodes were put. -/
theorem Chain.congr (h : Chain slots s xs) (hs : slots'.load s = slots.load s)
    (hload : ∀ x ∈ xs, slots'.load (.inr x) = slots.load (.inr x))
    (hback : ∀ x ∈ xs, slots'.back x = slots.back x) : Chain slots' s xs := by
  induction xs generalizing s with
  | nil => exact hs.trans h
  | cons x xs ih =>
      obtain ⟨hx, hxs, hrest⟩ := h
      refine ⟨hs.trans hx, (hback x List.mem_cons_self).trans hxs, ?_⟩
      apply ih hrest (hload x List.mem_cons_self)
      · exact fun y hy => hload y (List.mem_cons_of_mem x hy)
      · exact fun y hy => hback y (List.mem_cons_of_mem x hy)

/-- The slot is not the one of a node of the list. -/
def Outside (s : Slot κ ν) (xs : List ν) : Prop := ∀ x ∈ xs, s ≠ .inr x

theorem endSlot_eq (s : Slot κ ν) (xs : List ν) :
    endSlot s xs = s ∨ ∃ x ∈ xs, endSlot s xs = .inr x := by
  induction xs generalizing s with
  | nil => exact Or.inl rfl
  | cons x xs ih =>
      right
      rcases ih (.inr x) with h | ⟨y, hy, h⟩
      · exact ⟨x, List.mem_cons_self, h⟩
      · exact ⟨y, List.mem_cons_of_mem x hy, h⟩

/-- A slot outside a chain is not the one behind some of its nodes. -/
theorem ne_endSlot (hs : Outside s (x :: front)) :
    s ≠ endSlot (.inr x) front := by
  rcases endSlot_eq (.inr x) front with h | ⟨y, hy, h⟩
  · rw [h]
    exact hs x List.mem_cons_self
  · rw [h]
    exact hs y (List.mem_cons_of_mem x hy)

theorem outside_own (hx : x ∉ xs) : Outside (.inr x : Slot κ ν) xs := by
  intro y hy heq
  exact hx (Sum.inr.inj heq ▸ hy)

theorem endSlot_concat : endSlot s (front ++ [x]) = .inr x := by
  induction front generalizing s with
  | nil => rfl
  | cons y front ih => exact ih

section Put

variable [DecidableEq κ] [DecidableEq ν] {content : Option ν}

@[simp] theorem load_put_self :
    (slots.put s content).load s = some content := by
  simp [Slots.put]

theorem load_put_of_ne (hne : t ≠ s) :
    (slots.put s content).load t = slots.load t := by
  simp [Slots.put, hne]

@[simp] theorem back_put_self : (slots.put s (some x)).back x = some s := by
  simp [Slots.put]

theorem back_put_of_ne (hne : content ≠ some u) :
    (slots.put s content).back u = slots.back u := by
  cases content with
  | none => rfl
  | some x =>
      have hux : u ≠ x := fun h => hne (congrArg some h.symm)
      simp [Slots.put, hux]

/-- A chain that has neither the slot nor the node keeps its shape. -/
theorem Chain.put_of_outside (h : Chain slots s xs) (hst : s ≠ t)
    (ht : Outside t xs) (hcontent : ∀ x ∈ xs, content ≠ some x) :
    Chain (slots.put t content) s xs :=
  h.congr (load_put_of_ne hst) (fun x hx => load_put_of_ne (ht x hx).symm)
    (fun x hx => back_put_of_ne (hcontent x hx))

/-- The chain behind a slot that gets new contents. -/
theorem Chain.put_start (h : Chain slots t xs) (hnodup : xs.Nodup)
    (hs : Outside s xs) : Chain (slots.put s xs.head?) s xs := by
  cases xs with
  | nil => exact load_put_self
  | cons x xs =>
      obtain ⟨hx, hxs⟩ := List.nodup_cons.mp hnodup
      refine ⟨load_put_self, back_put_self, ?_⟩
      apply Chain.put_of_outside h.2.2
      · exact (hs x List.mem_cons_self).symm
      · exact fun y hy => hs y (List.mem_cons_of_mem x hy)
      · intro y hy heq
        exact hx (Option.some.inj heq ▸ hy)

/-- A node is inserted by two puts: what was behind it into its own slot, and it
into the slot that held this. -/
theorem Chain.insert (h : Chain slots s (front ++ rest))
    (hnodup : (front ++ rest).Nodup) (hu : u ∉ front ++ rest)
    (hs : Outside s (u :: (front ++ rest))) :
    Chain ((slots.put (.inr u) rest.head?).put (endSlot s front) (some u)) s
      (front ++ u :: rest) := by
  induction front generalizing s with
  | nil =>
      have hsu : .inr u ≠ s := (hs u List.mem_cons_self).symm
      have hbehind := h.put_start hnodup (outside_own hu)
      refine ⟨load_put_self, back_put_self, hbehind.put_of_outside hsu ?_ ?_⟩
      · exact fun x hx => hs x (List.mem_cons_of_mem u hx)
      · intro x hx heq
        exact hu (Option.some.inj heq ▸ hx)
  | cons y front ih =>
      obtain ⟨hload, hback, hrest⟩ := h
      obtain ⟨hy, hnodup⟩ := List.nodup_cons.mp hnodup
      obtain ⟨huy, hu⟩ := not_or.mp (fun h => hu (List.mem_cons.mpr h))
      have hyu : Outside (.inr y : Slot κ ν) (u :: (front ++ rest)) := by
        apply outside_own
        simp only [List.mem_cons, not_or]
        exact ⟨Ne.symm huy, hy⟩
      refine ⟨?_, ?_, ih hrest hnodup hu hyu⟩
      · have hfront : s ≠ endSlot s (y :: front) := by
          apply ne_endSlot
          intro x hx
          apply hs x
          simp only [List.mem_cons, List.mem_append] at hx ⊢
          tauto
        rw [load_put_of_ne hfront, load_put_of_ne (hs u List.mem_cons_self)]
        exact hload
      · have hhead : rest.head? ≠ some y := fun heq =>
          hy (List.mem_append_right front (List.mem_of_mem_head? heq))
        rw [back_put_of_ne (fun heq => huy (Option.some.inj heq)),
          back_put_of_ne hhead]
        exact hback

/-- A node is removed by putting what is behind it into the slot it was in. -/
theorem Chain.remove (h : Chain slots s (front ++ u :: rest))
    (hnodup : (front ++ u :: rest).Nodup)
    (hs : Outside s (front ++ u :: rest)) :
    Chain (slots.put (endSlot s front) rest.head?) s (front ++ rest) := by
  induction front generalizing s with
  | nil =>
      have hrest := (List.nodup_cons.mp hnodup).2
      exact Chain.put_start h.2.2 hrest fun x hx =>
        hs x (List.mem_cons_of_mem u hx)
  | cons y front ih =>
      obtain ⟨hload, hback, hrest⟩ := h
      obtain ⟨hy, hnodup⟩ := List.nodup_cons.mp hnodup
      refine ⟨?_, ?_, ih hrest hnodup (outside_own hy)⟩
      · have hfront : s ≠ endSlot s (y :: front) := by
          apply ne_endSlot
          intro x hx
          apply hs x
          rcases List.mem_cons.mp hx with rfl | hx
          · exact List.mem_cons_self
          · exact List.mem_cons_of_mem y (List.mem_append_left _ hx)
        rw [load_put_of_ne hfront]
        exact hload
      · have hhead : rest.head? ≠ some y := fun heq =>
          hy (List.mem_append_right front
            (List.mem_cons_of_mem u (List.mem_of_mem_head? heq)))
        rw [back_put_of_ne hhead]
        exact hback

end Put

/-! ## Families of chains -/

/-- Every node is in at most one list, and there once. -/
structure Apart (entries : κ → Option (List ν)) : Prop where
  nodup : ∀ {h xs}, entries h = some xs → xs.Nodup
  apart : ∀ {h k xs ys u}, entries h = some xs → entries k = some ys →
    u ∈ xs → u ∈ ys → h = k

theorem apart_none : Apart (fun _ : κ => (none : Option (List ν))) where
  nodup := fun h => nomatch h
  apart := fun h => nomatch h

/-- The node is in no list. -/
def Free (entries : κ → Option (List ν)) (u : ν) : Prop :=
  ∀ h xs, entries h = some xs → u ∉ xs

/-- Each head starts the chain of its list. -/
def ChainsOf (slots : Slots κ ν) (entries : κ → Option (List ν)) : Prop :=
  ∀ h xs, entries h = some xs → Chain slots (.inl h) xs

variable {entries : κ → Option (List ν)} {h k : κ} {ys : List ν}

theorem outside_head : Outside (.inl h : Slot κ ν) xs := by
  intro x _ heq
  cases heq

/-- The slot of a node that is in no list may change, and where it was put. -/
theorem ChainsOf.congr (hchains : ChainsOf slots entries) (hu : Free entries u)
    (hload : ∀ s, s ≠ .inr u → slots'.load s = slots.load s)
    (hback : ∀ x, x ≠ u → slots'.back x = slots.back x) :
    ChainsOf slots' entries := by
  intro h xs hxs
  have hne : ∀ x ∈ xs, x ≠ u := fun x hx hxu => hu h xs hxs (hxu ▸ hx)
  apply (hchains h xs hxs).congr
  · exact hload _ Sum.inl_ne_inr
  · exact fun x hx => hload _ fun heq => hne x hx (Sum.inr.inj heq)
  · exact fun x hx => hback x (hne x hx)

/-- The slot behind some entries of a list is in no other list. -/
theorem Apart.outside_endSlot (hapart : Apart entries)
    (hxs : entries h = some (front ++ rest)) (hk : k ≠ h)
    (hys : entries k = some ys) :
    endSlot (.inl h) front ≠ .inl k ∧
      Outside (endSlot (.inl h : Slot κ ν) front) ys := by
  rcases endSlot_eq (.inl h : Slot κ ν) front with heq | ⟨x, hx, heq⟩
  · rw [heq]
    exact ⟨fun h' => hk (Sum.inl.inj h').symm, outside_head⟩
  · rw [heq]
    refine ⟨Sum.inr_ne_inl, outside_own fun hmem => ?_⟩
    exact hk (hapart.apart hys hxs hmem (List.mem_append_left rest hx))

variable [DecidableEq κ]

section Put

variable [DecidableEq ν] {content : Option ν}

/-- The chain of another head is not changed by putting a node that is not in it
into a slot that is not in it. -/
theorem ChainsOf.put_other (hchains : ChainsOf slots entries)
    (hys : entries k = some ys) (hs : s ≠ .inl k) (hout : Outside s ys)
    (hcontent : ∀ x ∈ ys, content ≠ some x) :
    Chain (slots.put s content) (.inl k) ys :=
  (hchains k ys hys).put_of_outside hs.symm hout hcontent

theorem ChainsOf.insert (hchains : ChainsOf slots entries)
    (hapart : Apart entries) (hxs : entries h = some (front ++ rest))
    (hu : Free entries u) :
    ChainsOf ((slots.put (.inr u) rest.head?).put (endSlot (.inl h) front)
      (some u)) (Function.update entries h (some (front ++ u :: rest))) := by
  intro k ys hys
  by_cases hk : k = h
  · subst hk
    rw [Function.update_self] at hys
    obtain rfl := Option.some.inj hys
    exact (hchains k _ hxs).insert (hapart.nodup hxs) (hu k _ hxs) outside_head
  · rw [Function.update_of_ne hk] at hys
    obtain ⟨hne, hout⟩ := hapart.outside_endSlot hxs hk hys
    have hcontent : ∀ x ∈ ys, rest.head? ≠ some x := by
      intro x hx heq
      exact hk (hapart.apart hys hxs hx
        (List.mem_append_right front (List.mem_of_mem_head? heq)))
    have hother := hchains.put_other hys Sum.inr_ne_inl
      (outside_own (hu k ys hys)) hcontent
    apply hother.put_of_outside hne.symm hout
    intro x hx heq
    exact hu k ys hys (Option.some.inj heq ▸ hx)

theorem ChainsOf.remove (hchains : ChainsOf slots entries)
    (hapart : Apart entries) (hxs : entries h = some (front ++ u :: rest)) :
    ChainsOf (slots.put (endSlot (.inl h) front) rest.head?)
      (Function.update entries h (some (front ++ rest))) := by
  intro k ys hys
  by_cases hk : k = h
  · subst hk
    rw [Function.update_self] at hys
    obtain rfl := Option.some.inj hys
    exact (hchains k _ hxs).remove (hapart.nodup hxs) outside_head
  · rw [Function.update_of_ne hk] at hys
    obtain ⟨hne, hout⟩ := hapart.outside_endSlot hxs hk hys
    apply hchains.put_other hys hne hout
    intro x hx heq
    exact hk (hapart.apart hys hxs hx (List.mem_append_right front
      (List.mem_cons_of_mem u (List.mem_of_mem_head? heq))))

/-- A head is emptied. -/
theorem ChainsOf.init (hchains : ChainsOf slots entries) :
    ChainsOf (slots.put (.inl h) none)
      (Function.update entries h (some [])) := by
  intro k ys hys
  by_cases hk : k = h
  · subst hk
    rw [Function.update_self] at hys
    obtain rfl := Option.some.inj hys
    exact load_put_self
  · rw [Function.update_of_ne hk] at hys
    apply hchains.put_other hys _ outside_head
    · intro x _ heq
      cases heq
    · exact fun heq => hk (Sum.inl.inj heq).symm

end Put

/-! ## The lists stay apart -/

/-- A list gets entries that are in no other list. -/
theorem Apart.update (hapart : Apart entries) (hnodup : xs.Nodup)
    (hfresh : ∀ k ys u, k ≠ h → entries k = some ys → u ∈ xs → u ∉ ys) :
    Apart (Function.update entries h (some xs)) where
  nodup := by
    intro k ys hys
    by_cases hk : k = h
    · subst hk
      rw [Function.update_self] at hys
      exact Option.some.inj hys ▸ hnodup
    · rw [Function.update_of_ne hk] at hys
      exact hapart.nodup hys
  apart := by
    intro j k ys zs u hys hzs huy huz
    by_cases hj : j = h
    · subst hj
      rw [Function.update_self] at hys
      obtain rfl := Option.some.inj hys
      by_contra hk
      rw [Function.update_of_ne (Ne.symm hk)] at hzs
      exact hfresh k zs u (Ne.symm hk) hzs huy huz
    · rw [Function.update_of_ne hj] at hys
      by_cases hk : k = h
      · subst hk
        rw [Function.update_self] at hzs
        obtain rfl := Option.some.inj hzs
        exact absurd huy (hfresh j ys u hj hys huz)
      · rw [Function.update_of_ne hk] at hzs
        exact hapart.apart hys hzs huy huz

theorem Apart.insert (hapart : Apart entries)
    (hxs : entries h = some (front ++ rest)) (hu : Free entries u) :
    Apart (Function.update entries h (some (front ++ u :: rest))) := by
  apply hapart.update
  · exact List.perm_middle.nodup_iff.mpr
      (List.nodup_cons.mpr ⟨hu h _ hxs, hapart.nodup hxs⟩)
  · intro k ys v hk hys hv hvy
    rcases List.mem_cons.mp (List.perm_middle.mem_iff.mp hv) with rfl | hv
    · exact hu k ys hys hvy
    · exact hk (hapart.apart hys hxs hvy hv)

theorem Apart.remove (hapart : Apart entries)
    (hxs : entries h = some (front ++ u :: rest)) :
    Apart (Function.update entries h (some (front ++ rest))) := by
  apply hapart.update
  · exact (List.nodup_cons.mp
      (List.perm_middle.nodup_iff.mp (hapart.nodup hxs))).2
  · intro k ys v hk hys hv hvy
    exact hk (hapart.apart hys hxs hvy
      (List.perm_middle.mem_iff.mpr (List.mem_cons_of_mem u hv)))

theorem Apart.init (hapart : Apart entries) :
    Apart (Function.update entries h (some [])) :=
  hapart.update List.nodup_nil fun _ _ _ _ _ hu => absurd hu List.not_mem_nil

/-- A removed node is in no list. -/
theorem Apart.free_of_remove (hapart : Apart entries)
    (hxs : entries h = some (front ++ u :: rest)) :
    Free (Function.update entries h (some (front ++ rest))) u := by
  intro k ys hys hu
  by_cases hk : k = h
  · subst hk
    rw [Function.update_self] at hys
    obtain rfl := Option.some.inj hys
    have hnodup := List.perm_middle.nodup_iff.mp (hapart.nodup hxs)
    exact (List.nodup_cons.mp hnodup).1 hu
  · rw [Function.update_of_ne hk] at hys
    exact hk (hapart.apart hys hxs hu (List.mem_append_right front
      List.mem_cons_self))

/-- A node that is in no list stays in none when a list gets fewer entries, or
other ones. -/
theorem Free.update (hu : Free entries u) (hxs : u ∉ xs) :
    Free (Function.update entries h (some xs)) u := by
  intro k ys hys
  by_cases hk : k = h
  · subst hk
    rw [Function.update_self] at hys
    exact Option.some.inj hys ▸ hxs
  · rw [Function.update_of_ne hk] at hys
    exact hu k ys hys

end SlotChains

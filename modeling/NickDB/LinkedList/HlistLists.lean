import NickDB.Support.SlotChains
import Mathlib.Data.Set.Insert

/-!
# What the hlists stand for

The calls on an `hlist` as steps of an abstract family of lists: the entries of
each head in order, the nodes that know they are in no list, and those that
`hlist_del` has left poisoned.
-/

namespace NickDB

open SlotChains

/-- The calls that write. -/
inductive HlistCall (κ ν : Type)
  | initHead (head : κ)
  | initNode (node : ν)
  | addHead (n : ν) (h : κ)
  | addBefore (n next : ν)
  | addAfter (n next : ν)
  | del (n : ν)
  | delInit (n : ν)
  deriving DecidableEq, Repr

/-- Lists without common nodes, and nodes that are in none of them. -/
structure HlistWorld (κ ν : Type) where
  entries : κ → Option (List ν)
  unhashed : Set ν
  deleted : Set ν
  apart : Apart entries
  free : ∀ u, u ∈ unhashed ∨ u ∈ deleted → Free entries u
  exclusive : ∀ u ∈ unhashed, u ∉ deleted

/-- No list yet. -/
def HlistWorld.empty {κ ν : Type} : HlistWorld κ ν where
  entries := fun _ => none
  unhashed := ∅
  deleted := ∅
  apart := apart_none
  free := fun _ _ _ _ h => nomatch h
  exclusive := fun _ h => absurd h (Set.notMem_empty _)

variable {κ ν : Type} [DecidableEq κ]

/-- A node that was in no list is now in the list of `h`, between `front` and
`rest`. -/
structure HlistWorld.Inserted (s : HlistWorld κ ν) (u : ν) (h : κ)
    (front rest : List ν) (t : HlistWorld κ ν) : Prop where
  free : Free s.entries u
  before : s.entries h = some (front ++ rest)
  after : t.entries =
    Function.update s.entries h (some (front ++ u :: rest))
  unhashed : t.unhashed = s.unhashed \ {u}
  deleted : t.deleted = s.deleted \ {u}

/-- The node was in the list of `h`, between `front` and `rest`. -/
structure HlistWorld.Removed (s : HlistWorld κ ν) (u : ν) (h : κ)
    (front rest : List ν) (t : HlistWorld κ ν) : Prop where
  before : s.entries h = some (front ++ u :: rest)
  after : t.entries = Function.update s.entries h (some (front ++ rest))

/-- The step of a call. -/
def hlistStep (s : HlistWorld κ ν) (call : HlistCall κ ν)
    (t : HlistWorld κ ν) : Prop :=
  match call with
  | .initHead h =>
      t.entries = Function.update s.entries h (some []) ∧
        t.unhashed = s.unhashed ∧ t.deleted = s.deleted
  | .initNode u =>
      Free s.entries u ∧ t.entries = s.entries ∧
        t.unhashed = insert u s.unhashed ∧ t.deleted = s.deleted \ {u}
  | .addHead u h => ∃ rest, s.Inserted u h [] rest t
  | .addBefore u x => ∃ h front rest, s.Inserted u h front (x :: rest) t
  | .addAfter x u => ∃ h front rest, s.Inserted u h (front ++ [x]) rest t
  | .del u => ∃ h front rest, s.Removed u h front rest t ∧
      t.unhashed = s.unhashed ∧ t.deleted = insert u s.deleted
  | .delInit u => u ∈ s.unhashed ∧ t = s ∨
      ∃ h front rest, s.Removed u h front rest t ∧
        t.unhashed = insert u s.unhashed ∧ t.deleted = s.deleted

/-- What the caller of each call has to see to. -/
def HlistCall.Permitted (s : HlistWorld κ ν) : HlistCall κ ν → Prop
  | .initHead _ => True
  | .initNode node => Free s.entries node
  | .addHead n h => Free s.entries n ∧ ∃ xs, s.entries h = some xs
  | .addBefore n next => Free s.entries n ∧ ¬Free s.entries next
  | .addAfter n next => Free s.entries next ∧ ¬Free s.entries n
  | .del n => ¬Free s.entries n
  | .delInit n => n ∈ s.unhashed ∨ ¬Free s.entries n

/-! ## A permitted call is a step -/

variable {s t : HlistWorld κ ν} {call : HlistCall κ ν} {u x : ν} {h : κ}
  {front rest : List ν}

omit [DecidableEq κ] in
theorem exists_entry (hu : ¬Free s.entries u) :
    ∃ h front rest, s.entries h = some (front ++ u :: rest) := by
  simp only [Free, not_forall, not_not] at hu
  obtain ⟨h, xs, hxs, hmem⟩ := hu
  obtain ⟨front, rest, rfl⟩ := List.append_of_mem hmem
  exact ⟨h, front, rest, hxs⟩

theorem exists_inserted (hu : Free s.entries u)
    (hxs : s.entries h = some (front ++ rest)) :
    ∃ t, s.Inserted u h front rest t := by
  have hfree : ∀ v, v ∈ s.unhashed \ {u} ∨ v ∈ s.deleted \ {u} →
      Free (Function.update s.entries h (some (front ++ u :: rest))) v := by
    intro v hv
    have hvu : v ≠ u := hv.elim (fun h => h.2) (fun h => h.2)
    have hvfree := s.free v (hv.imp (fun h => h.1) (fun h => h.1))
    apply hvfree.update
    intro hmem
    rcases List.mem_cons.mp (List.perm_middle.mem_iff.mp hmem) with heq | hmem
    · exact hvu heq
    · exact hvfree h _ hxs hmem
  exact ⟨⟨_, s.unhashed \ {u}, s.deleted \ {u}, s.apart.insert hxs hu, hfree,
    fun v hv hv' => s.exclusive v hv.1 hv'.1⟩, hu, hxs, rfl, rfl, rfl⟩

/-- A removed node is in no list, and no other node is new to the lists. -/
theorem HlistWorld.free_after_removal
    (hxs : s.entries h = some (front ++ u :: rest)) {v : ν}
    (hv : v = u ∨ v ∈ s.unhashed ∨ v ∈ s.deleted) :
    Free (Function.update s.entries h (some (front ++ rest))) v := by
  rcases hv with rfl | hv
  · exact s.apart.free_of_remove hxs
  · apply (s.free v hv).update
    intro hmem
    exact s.free v hv h _ hxs
      (List.perm_middle.mem_iff.mpr (List.mem_cons_of_mem u hmem))

/-- `hlist_del` of an entry. -/
theorem exists_deleted (hxs : s.entries h = some (front ++ u :: rest)) :
    ∃ t, s.Removed u h front rest t ∧ t.unhashed = s.unhashed ∧
      t.deleted = insert u s.deleted := by
  have hfree : ∀ v, v ∈ s.unhashed ∨ v ∈ insert u s.deleted →
      Free (Function.update s.entries h (some (front ++ rest))) v := by
    intro v hv
    apply HlistWorld.free_after_removal hxs
    rcases hv with hv | hv
    · exact Or.inr (Or.inl hv)
    · exact (Set.mem_insert_iff.mp hv).imp id Or.inr
  have hexclusive : ∀ v ∈ s.unhashed, v ∉ insert u s.deleted := by
    intro v hv hv'
    rcases Set.mem_insert_iff.mp hv' with rfl | hv'
    · exact s.free v (Or.inl hv) h _ hxs (by simp)
    · exact s.exclusive v hv hv'
  exact ⟨⟨_, s.unhashed, _, s.apart.remove hxs, hfree, hexclusive⟩,
    ⟨hxs, rfl⟩, rfl, rfl⟩

/-- `hlist_del_init` of an entry. -/
theorem exists_unhashed (hxs : s.entries h = some (front ++ u :: rest)) :
    ∃ t, s.Removed u h front rest t ∧ t.unhashed = insert u s.unhashed ∧
      t.deleted = s.deleted := by
  have hfree : ∀ v, v ∈ insert u s.unhashed ∨ v ∈ s.deleted →
      Free (Function.update s.entries h (some (front ++ rest))) v := by
    intro v hv
    apply HlistWorld.free_after_removal hxs
    rcases hv with hv | hv
    · exact (Set.mem_insert_iff.mp hv).imp id Or.inl
    · exact Or.inr (Or.inr hv)
  have hexclusive : ∀ v ∈ insert u s.unhashed, v ∉ s.deleted := by
    intro v hv hv'
    rcases Set.mem_insert_iff.mp hv with rfl | hv
    · exact s.free v (Or.inr hv') h _ hxs (by simp)
    · exact s.exclusive v hv hv'
  exact ⟨⟨_, _, s.deleted, s.apart.remove hxs, hfree, hexclusive⟩,
    ⟨hxs, rfl⟩, rfl, rfl⟩

theorem hlistStep_of_permitted (hcall : call.Permitted s) :
    ∃ t, hlistStep s call t := by
  cases call with
  | initHead h =>
      have hfree : ∀ v, v ∈ s.unhashed ∨ v ∈ s.deleted →
          Free (Function.update s.entries h (some [])) v :=
        fun v hv => (s.free v hv).update List.not_mem_nil
      exact ⟨⟨_, s.unhashed, s.deleted, s.apart.init, hfree, s.exclusive⟩,
        rfl, rfl, rfl⟩
  | initNode u =>
      have hfree : ∀ v, v ∈ insert u s.unhashed ∨ v ∈ s.deleted \ {u} →
          Free s.entries v := by
        intro v hv
        rcases hv with hv | hv
        · rcases Set.mem_insert_iff.mp hv with rfl | hv
          · exact hcall
          · exact s.free v (Or.inl hv)
        · exact s.free v (Or.inr hv.1)
      have hexclusive : ∀ v ∈ insert u s.unhashed, v ∉ s.deleted \ {u} := by
        intro v hv hv'
        rcases Set.mem_insert_iff.mp hv with rfl | hv
        · exact hv'.2 rfl
        · exact s.exclusive v hv hv'.1
      exact ⟨⟨s.entries, _, _, s.apart, hfree, hexclusive⟩,
        hcall, rfl, rfl, rfl⟩
  | addHead u h =>
      obtain ⟨hu, xs, hxs⟩ := hcall
      obtain ⟨t, ht⟩ := exists_inserted hu
        (show s.entries h = some ([] ++ xs) from hxs)
      exact ⟨t, xs, ht⟩
  | addBefore u x =>
      obtain ⟨h, front, rest, hxs⟩ := exists_entry hcall.2
      obtain ⟨t, ht⟩ := exists_inserted hcall.1 hxs
      exact ⟨t, h, front, rest, ht⟩
  | addAfter x u =>
      obtain ⟨h, front, rest, hxs⟩ := exists_entry hcall.2
      rw [List.append_cons] at hxs
      obtain ⟨t, ht⟩ := exists_inserted hcall.1 hxs
      exact ⟨t, h, front, rest, ht⟩
  | del u =>
      obtain ⟨h, front, rest, hxs⟩ := exists_entry hcall
      obtain ⟨t, ht⟩ := exists_deleted hxs
      exact ⟨t, h, front, rest, ht⟩
  | delInit u =>
      rcases hcall with hcall | hcall
      · exact ⟨s, Or.inl ⟨hcall, rfl⟩⟩
      · obtain ⟨h, front, rest, hxs⟩ := exists_entry hcall
        obtain ⟨t, ht⟩ := exists_unhashed hxs
        exact ⟨t, Or.inr ⟨h, front, rest, ht⟩⟩

end NickDB

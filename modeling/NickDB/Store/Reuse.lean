import NickDB.Store.InUse
import Mathlib.Data.Finset.Card

/-!
# Reuse of space

A client that frees only pages it has got makes the file grow only when every
page of the store is allocated.  So the number of pages, less the metadata
page, is the largest number of pages that were ever allocated at once, and the
pages that are not allocated now are the ones on the list of free pages.

Which pages are allocated is not part of the file; it follows from the calls
and is kept next to it.
-/

namespace NickDB

open Linked Runs

/-- The pages that have been allocated and not been freed since. -/
abbrev LivePages := Finset PageIndex

/-- The allocated pages after a call. -/
def liveAfter (live : LivePages) : StoreEvent → LivePages
  | .alloc _ .ok index => insert index live
  | .free index .ok => live.erase index
  | _ => live

/-- A step together with the allocated pages. -/
def liveStep (store : Backing) (s : StoreFile × LivePages)
    (event : StoreEvent) (t : StoreFile × LivePages) : Prop :=
  storeStep store s.1 event t.1 ∧ t.2 = liveAfter s.2 event

/-- The calls considered: allocations with contents, and `free_page` on pages
that are allocated. -/
def FreesLive (s : StoreFile × LivePages) : StoreEvent → Prop
  | .alloc src _ _ => src ≠ none
  | .free index _ => index ∈ s.2
  | .get _ _ _ _ => False
  | .put _ _ _ => False

/-- The number of pages of the store, less the metadata page. -/
def dataPages (file : StoreFile) : ℤ :=
  (metaSize (pageAt file.image 0)).toInt - 1

/-- Every page of the store is allocated or free. -/
structure LiveAt (file : StoreFile) (live : LivePages) (size : ℕ)
    (free : List ℕ) : Prop extends HoldsStore file size free where
  page : ∀ index ∈ live, ∃ k, index = Int64.ofNat k ∧ 1 ≤ k ∧ k < size ∧
    k ∉ free
  count : live.card + free.length + 1 = size

variable {file file' : StoreFile} {live : LivePages} {size : ℕ}
  {free : List ℕ} {store : Backing} {status : Status} {index : PageIndex}

theorem HoldsStore.dataPages_eq (h : HoldsStore file size free) :
    dataPages file = size - 1 := by
  rw [dataPages, h.storeAt.toInt_size]

/-- The free pages are not allocated, and no other page of the store is
missing. -/
theorem LiveAt.not_mem {k : ℕ} (h : LiveAt file live size free)
    (hk : k < pageLimit) (hfree : k ∈ free ∨ size ≤ k) :
    Int64.ofNat k ∉ live := by
  intro hmem
  obtain ⟨j, heq, -, hj, hjfree⟩ := h.page _ hmem
  rw [pageIndex_inj hk (h.storeAt.lt_pageLimit hj)] at heq
  subst heq
  rcases hfree with hmem | hge
  · exact hjfree hmem
  · omega

/-! ## One lemma for each call -/

/-- The file grows only when every page is allocated. -/
theorem LiveAt.alloc {src : Page} (h : LiveAt file live size free)
    (hcall : storeStep store file (.alloc (some src) status index) file') :
    ∃ size' free', LiveAt file' (liveAfter live (.alloc (some src) status
      index)) size' free' ∧
      (size' : ℤ) - 1 = max ((size : ℤ) - 1)
        ((liveAfter live (.alloc (some src) status index)).card : ℤ) := by
  have hcount := h.count
  have hmisses : some src = none → BlankMisses file.image := nofun
  rcases h.alloc_page hmisses hcall with ⟨k, rest, rfl, rfl, rfl, h'⟩ |
      ⟨rfl, rfl, rfl, hlimit, h'⟩ | ⟨hstatus, rfl⟩
  · have hk := h.storeAt.freelist.limit k List.mem_cons_self
    have hnot := h.not_mem hk (Or.inl List.mem_cons_self)
    have hnodup := List.nodup_cons.mp h.storeAt.freelist.nodup
    have hcard : (insert (Int64.ofNat k) live).card = live.card + 1 :=
      Finset.card_insert_of_notMem hnot
    rw [List.length_cons] at hcount
    refine ⟨size, rest, ⟨h', ?_, ?_⟩, ?_⟩
    · intro i hi
      rcases Finset.mem_insert.mp hi with rfl | hi
      · exact ⟨k, rfl, (h.storeAt.freelist.inFile k List.mem_cons_self).1,
          h.storeAt.free_lt k List.mem_cons_self, hnodup.1⟩
      · obtain ⟨j, rfl, hpos, hj, hfree⟩ := h.page i hi
        exact ⟨j, rfl, hpos, hj, fun hmem =>
          hfree (List.mem_cons_of_mem k hmem)⟩
    · rw [liveAfter, hcard]
      omega
    · rw [liveAfter, hcard]
      omega
  · have hnot := h.not_mem hlimit (Or.inr (Nat.le_refl size))
    have hcard : (insert (Int64.ofNat size) live).card = live.card + 1 :=
      Finset.card_insert_of_notMem hnot
    rw [List.length_nil] at hcount
    refine ⟨size + 1, [], ⟨h', ?_, ?_⟩, ?_⟩
    · intro i hi
      rcases Finset.mem_insert.mp hi with rfl | hi
      · exact ⟨size, rfl, h.storeAt.size_pos, Nat.lt_succ_self size, by simp⟩
      · obtain ⟨j, rfl, hpos, hj, -⟩ := h.page i hi
        exact ⟨j, rfl, hpos, Nat.lt_succ_of_lt hj, by simp⟩
    · rw [liveAfter, hcard, List.length_nil]
      omega
    · rw [liveAfter, hcard]
      omega
  · have hsame : liveAfter live (.alloc (some src) status index) = live := by
      cases status with
      | ok => exact absurd rfl hstatus
      | _ => rfl
    rw [hsame]
    exact ⟨size, free, h, by omega⟩

theorem LiveAt.freed (h : LiveAt file live size free) (hlive : index ∈ live)
    (hcall : storeStep store file (.free index status) file') :
    ∃ free', LiveAt file' (liveAfter live (.free index status)) size free' := by
  obtain ⟨k, rfl, hpos, hk, hfree⟩ := h.page index hlive
  rw [h.eq_reliable] at hcall
  obtain ⟨image', hresult, hstore', -⟩ := h.storeAt.free_page store hpos hk
  obtain ⟨rfl, rfl⟩ : Status.ok = status ∧ reliable image' = file' := by
    simpa using hresult.symm.trans hcall
  have hlimit := h.storeAt.lt_pageLimit hk
  rw [requeue_of_not_mem hfree] at hstore'
  refine ⟨free ++ [k], ⟨⟨rfl, hstore'⟩, ?_, ?_⟩⟩
  · intro i hi
    obtain ⟨hne, hi⟩ := Finset.mem_erase.mp hi
    obtain ⟨j, rfl, hjpos, hj, hjfree⟩ := h.page i hi
    refine ⟨j, rfl, hjpos, hj, fun hmem => ?_⟩
    rcases List.mem_append.mp hmem with hmem | hmem
    · exact hjfree hmem
    · obtain rfl := List.mem_singleton.mp hmem
      exact hne rfl
  · have hcard := Finset.card_erase_add_one hlive
    have hcount := h.count
    rw [liveAfter, List.length_append, List.length_singleton]
    omega

/-! ## Runs -/

/-- Every page of the store is allocated or free. -/
def AllLive (s : StoreFile × LivePages) : Prop :=
  ∃ size free, LiveAt s.1 s.2 size free

theorem AllLive.card_le {s : StoreFile × LivePages} (h : AllLive s) :
    (s.2.card : ℤ) ≤ dataPages s.1 := by
  obtain ⟨size, free, h⟩ := h
  have hcount := h.count
  rw [h.dataPages_eq]
  omega

/-- A step keeps all pages accounted for, and makes the store grow exactly when
more pages are allocated than it has. -/
theorem AllLive.step {s t : StoreFile × LivePages} {event : StoreEvent}
    (h : AllLive s) (hcall : Guarded (liveStep store) FreesLive s event t) :
    AllLive t ∧ dataPages t.1 = max (dataPages s.1) (t.2.card : ℤ) := by
  obtain ⟨file, live⟩ := s
  obtain ⟨file', live'⟩ := t
  obtain ⟨hguard, hcall, hlive⟩ := hcall
  obtain rfl : live' = liveAfter live event := hlive
  obtain ⟨size, free, h⟩ := h
  cases event with
  | alloc src status index =>
      obtain ⟨value, rfl⟩ := Option.ne_none_iff_exists'.mp hguard
      obtain ⟨size', free', h', hmax⟩ := h.alloc hcall
      refine ⟨⟨size', free', h'⟩, ?_⟩
      rw [h.dataPages_eq, h'.dataPages_eq]
      exact hmax
  | free index status =>
      obtain ⟨free', h'⟩ := h.freed hguard hcall
      have hall : AllLive (file', liveAfter live (.free index status)) :=
        ⟨size, free', h'⟩
      have hsame : dataPages file' = dataPages file :=
        h'.dataPages_eq.trans h.dataPages_eq.symm
      exact ⟨hall, hsame.trans (max_eq_left (hsame ▸ hall.card_le)).symm⟩
  | get dest index status read => exact hguard.elim
  | put src index status => exact hguard.elim

theorem liveStep_unique {s t u : StoreFile × LivePages} {event : StoreEvent}
    (ht : Guarded (liveStep store) FreesLive s event t)
    (hu : Guarded (liveStep store) FreesLive s event u) : t = u := by
  obtain ⟨hguard, ht, hlive⟩ := ht
  obtain ⟨-, hu, hlive'⟩ := hu
  refine Prod.ext ?_ (hlive.trans hlive'.symm)
  cases event with
  | alloc src status index =>
      exact congrArg (fun result => result.2.2) (ht.symm.trans hu)
  | free index status => exact congrArg Prod.snd (ht.symm.trans hu)
  | get dest index status read => exact hguard.elim
  | put src index status => exact hguard.elim

/-- From a fresh store on, the number of pages is the largest number of pages
that were allocated at some point of the run, and as many pages are on the list
of free pages as are not allocated. -/
theorem space_reused {storefd : ℤ} {file : StoreFile}
    {events : List StoreEvent} {t : StoreFile × LivePages}
    (hcreate : createNewBacking storefd [] = (.ok, file))
    (hrun : Run (Guarded (liveStep store) FreesLive) (file, ∅) events t) :
    IsGreatest {n : ℤ | ∃ u, Visits (Guarded (liveStep store) FreesLive)
        (file, ∅) events t u ∧ (u.2.card : ℤ) = n} (dataPages t.1) ∧
    ∃ offsets, Chain (nextFree t.1.image)
        (linkTarget (freelistHead (pageAt t.1.image 0))) offsets ∧
      dataPages t.1 - t.2.card = offsets.length := by
  have hcreated := holdsStore_created hcreate
  have hstart : AllLive (file, ∅) := ⟨1, [], ⟨hcreated, by simp, by simp⟩⟩
  have hpeak : dataPages file = ((∅ : LivePages).card : ℤ) := by
    rw [hcreated.dataPages_eq]
    rfl
  constructor
  · apply Run.isGreatest_peak (I := AllLive)
      (m := fun s : StoreFile × LivePages => (s.2.card : ℤ))
      (p := fun s : StoreFile × LivePages => dataPages s.1) ?_ ?_ hrun
        hstart hpeak
    · intro s event t h hcall
      exact h.step hcall
    · intro s event t u ht hu
      exact liveStep_unique ht hu
  · obtain ⟨size, free, h⟩ : AllLive t :=
      hrun.invariant (I := AllLive) (fun _ _ _ h hcall => (h.step hcall).1)
        hstart
    have hcount := h.count
    refine ⟨free.map pageOffset, h.storeAt.freelist.path, ?_⟩
    rw [h.dataPages_eq, List.length_map]
    omega

/-- A page is allocated, freed and allocated again. -/
theorem space_reused_once :
    ∃ t, Run (Guarded (liveStep ⟨3⟩) FreesLive) (reliable createdImage, ∅)
        [.alloc (some blankPage) .ok 1, .free 1 .ok,
          .alloc (some blankPage) .ok 1] t ∧
      IsGreatest {n : ℤ | ∃ u, Visits (Guarded (liveStep ⟨3⟩) FreesLive)
        (reliable createdImage, ∅)
        [.alloc (some blankPage) .ok 1, .free 1 .ok,
          .alloc (some blankPage) .ok 1] t u ∧ (u.2.card : ℤ) = n}
        (dataPages t.1) := by
  have hcreate := createNewBacking_reliable (show (3 : ℤ) ≠ -1 by decide)
  obtain ⟨image₁, halloc, hstore₁, -⟩ :=
    storeAt_createdImage.alloc_appended ⟨3⟩ (by decide) (some blankPage)
  obtain ⟨image₂, hfree, hstore₂, -⟩ :=
    hstore₁.free_page (k := 1) ⟨3⟩ (by decide) (by decide)
  have hfree₂ : StoreAt image₂ 2 [1] := hstore₂
  obtain ⟨image₃, hagain, -⟩ := hfree₂.alloc_recycled ⟨3⟩ blankPage
  have hrun : Run (Guarded (liveStep ⟨3⟩) FreesLive)
      (reliable createdImage, ∅)
      [.alloc (some blankPage) .ok 1, .free 1 .ok,
        .alloc (some blankPage) .ok 1] (reliable image₃, {1}) :=
    .cons (t := (reliable image₁, {1})) ⟨nofun, halloc, rfl⟩
      (.cons (t := (reliable image₂, ∅))
        ⟨Finset.mem_singleton_self 1, hfree, rfl⟩
        (.cons (t := (reliable image₃, {1})) ⟨nofun, hagain, rfl⟩ (.nil _)))
  exact ⟨_, hrun, (space_reused hcreate hrun).1⟩

end NickDB

import NickDB.Store.InUse

/-!
# The list of free pages under double frees

`free_page` does not check whether a page is free already.  A page that is
freed twice moves to the end of the list, and the pages that stood behind it
are dropped from the list; no cycle arises, and no page is handed out twice.
-/

namespace NickDB

open Linked Runs

/-- The calls considered: allocations with contents, and `free_page` on any
page of the store. -/
def FreesAnyPage (file : StoreFile) : StoreEvent → Prop
  | .alloc src _ _ => src ≠ none
  | .free index _ => 0 < index ∧ index < metaSize (pageAt file.image 0)
  | .get _ _ _ _ => False
  | .put _ _ _ => False

variable {file file' : StoreFile} {size : ℕ} {free : List ℕ}
  {store : Backing}

theorem FreesAnyPage.freesExisting {event : StoreEvent}
    (h : FreesAnyPage file event) : FreesExisting file event := by
  cases event with
  | alloc src status index => exact fun hnone => absurd hnone h
  | free index status => exact Or.inl h
  | get dest index status read => exact h.elim
  | put src index status => exact h.elim

/-! ## The list and the allocations of a run -/

/-- Head and tail are `-1` together, and the links lead from the head through
distinct pages of the store to the tail, whose link is `-1`. -/
structure ListSound (file : StoreFile) : Prop where
  head_iff_tail : freelistHead (pageAt file.image 0) = emptyList ↔
    freelistTail (pageAt file.image 0) = emptyList
  chain : ∃ offsets : List ByteOffset, offsets.Nodup ∧
    (∀ offset ∈ offsets, 4096 ∣ offset.toInt ∧ 4096 ≤ offset.toInt ∧
      offset.toInt < 4096 * (metaSize (pageAt file.image 0)).toInt) ∧
    Chain (nextFree file.image)
      (linkTarget (freelistHead (pageAt file.image 0))) offsets ∧
    linkTarget (freelistTail (pageAt file.image 0)) = offsets.getLast? ∧
    ∀ offset ∈ offsets.getLast?, nextFree file.image offset = none

theorem nextFree_getLast {image : ByteFile UInt8} {start : Option ByteOffset}
    {offsets : List ByteOffset} (h : Chain (nextFree image) start offsets) :
    ∀ offset ∈ offsets.getLast?, nextFree image offset = none := by
  intro offset hoffset
  rcases List.eq_nil_or_concat offsets with rfl | ⟨front, last, rfl⟩
  · cases hoffset
  · rw [List.concat_eq_append] at h hoffset
    obtain rfl : last = offset := by simpa using hoffset
    exact (path_append_singleton.mp h).2

theorem StoreAt.listSound {image : ByteFile UInt8}
    (h : StoreAt image size free) : ListSound (reliable image) where
  head_iff_tail := by
    cases free with
    | nil => simp only [h.freelist.head_nil, h.freelist.tail_nil]
    | cons k rest =>
        obtain ⟨front, t, hsnoc⟩ :=
          (List.eq_nil_or_concat (k :: rest)).resolve_left (by simp)
        rw [List.concat_eq_append] at hsnoc
        have htail := (hsnoc ▸ h.freelist).tail_snoc
        have hk : k < pageLimit := h.freelist.limit k List.mem_cons_self
        have ht : t < pageLimit := h.freelist.limit t (by simp [hsnoc])
        simp only [h.freelist.head_cons, htail, pageOffset_ne_emptyList hk,
          pageOffset_ne_emptyList ht]
  chain := by
    have hchain : Chain (nextFree image)
        (linkTarget (freelistHead (pageAt image 0))) (free.map pageOffset) :=
      h.freelist.path
    refine ⟨free.map pageOffset, hchain.nodup, ?_, hchain, ?_,
      nextFree_getLast hchain⟩
    · intro offset hoffset
      obtain ⟨k, hk, rfl⟩ := List.mem_map.mp hoffset
      have hlt := h.free_lt k hk
      have hpos := (h.freelist.inFile k hk).1
      rw [toInt_pageOffset (h.freelist.limit k hk), h.toInt_size]
      exact ⟨Dvd.intro k rfl, by omega, by omega⟩
    · rw [h.freelist.tail, linkTarget_emptyList, Option.or_none]

/-- Under any frees of pages of the store, the list of free pages stays sound,
and an allocated page is not allocated again before it has been freed. -/
theorem freelist_sound_under_double_frees {store : Backing} {storefd : ℤ}
    {file file' : StoreFile} {events : List StoreEvent}
    (hcreate : createNewBacking storefd [] = (.ok, file))
    (hrun : Run (Guarded (storeStep store) FreesAnyPage) file events file') :
    ListSound file' ∧
    ∀ front src index mid src' back,
      events = front ++ .alloc src .ok index :: mid ++
        .alloc src' .ok index :: back →
      ∃ status, .free index status ∈ mid := by
  have hcreated : IsStore file := ⟨1, [], holdsStore_created hcreate⟩
  have hruns : Run (Guarded (storeStep store) FreesExisting) file events
      file' :=
    hrun.mono fun _ _ _ h => ⟨h.1.freesExisting, h.2⟩
  constructor
  · obtain ⟨size, free, h⟩ : IsStore file' :=
      hruns.invariant (fun _ _ _ h hcall => IsStore.step h hcall) hcreated
    rw [h.eq_reliable]
    exact h.storeAt.listSound
  · intro front src index mid src' back heq
    exact hcreated.not_alloc_twice hruns heq

/-- A page is freed twice and allocated again. -/
theorem freelist_sound_after_double_free :
    ∃ file', Run (Guarded (storeStep ⟨3⟩) FreesAnyPage)
      (reliable createdImage)
      [.alloc (some blankPage) .ok 1, .free 1 .ok, .free 1 .ok,
        .alloc (some blankPage) .ok 1] file' ∧
      ListSound file' := by
  have hcreate := createNewBacking_reliable (show (3 : ℤ) ≠ -1 by decide)
  obtain ⟨image₁, halloc, hstore₁, -⟩ :=
    storeAt_createdImage.alloc_appended ⟨3⟩ (by decide)
      (some blankPage)
  obtain ⟨image₂, hfree, hstore₂, -⟩ :=
    hstore₁.free_page (k := 1) ⟨3⟩ (by decide) (by decide)
  obtain ⟨image₃, hagain, hstore₃, -⟩ :=
    hstore₂.free_page (k := 1) ⟨3⟩ (by decide) (by decide)
  have hfree₃ : StoreAt image₃ 2 [1] := hstore₃
  obtain ⟨image₄, hrecycled, -⟩ := hfree₃.alloc_recycled ⟨3⟩ blankPage
  have hrun : Run (Guarded (storeStep ⟨3⟩) FreesAnyPage)
      (reliable createdImage)
      [.alloc (some blankPage) .ok 1, .free 1 .ok, .free 1 .ok,
        .alloc (some blankPage) .ok 1] (reliable image₄) := by
    refine .cons ⟨nofun, halloc⟩ (.cons ⟨⟨by decide, ?_⟩, hfree⟩
      (.cons ⟨⟨by decide, ?_⟩, hagain⟩ (.cons ⟨nofun, hrecycled⟩ (.nil _))))
    · rw [hstore₁.meta_size]
      decide
    · rw [hstore₂.meta_size]
      decide
  exact ⟨_, hrun, (freelist_sound_under_double_frees hcreate hrun).1⟩

end NickDB

import NickDB.Store.InUse

/-!
# Frees of pages that do not exist

`free_page` is to add a page to the list of free pages only if the page exists.
It checks no index against the number of pages: an index past the end of the
store is put on the list, is handed out from there, and is handed out once more
when the store has grown up to it.  This module states exactly which indices are
refused, and that the store is safe as long as only existing pages are freed.
-/

namespace NickDB

open Linked Runs

/-- An index that names no page is refused and nothing changes, and a page that
is allocated lies in the store. -/
def FreesOnlyPages (file : StoreFile) (event : StoreEvent)
    (file' : StoreFile) : Prop :=
  match event with
  | .alloc _ .ok index => IsPage file' index
  | .free index status => ¬IsPage file index → status ≠ .ok ∧ file' = file
  | _ => True

variable {file file' : StoreFile} {size : ℕ} {free : List ℕ}
  {store : Backing} {status : Status} {index : PageIndex}

/-- An index with a negative offset is linked behind the last free page. -/
theorem HoldsStore.free_neg {front : List ℕ} {t : ℕ}
    (h : HoldsStore file size (front ++ [t])) (hneg : indexToOffset index < 0)
    (hcall : freePage (some store) file index = (status, file')) :
    file' ≠ file := by
  have ht : t < pageLimit := h.storeAt.freelist.limit t (by simp)
  have hresult := freePage_appended_neg store h.storeAt.inFile_zero hneg ht
    h.storeAt.freelist.tail_snoc
  rw [← h.eq_reliable, hcall] at hresult
  obtain rfl : file' = reliable (writePage file.image t
    (linkPage (indexToOffset index))) := congrArg Prod.snd hresult
  have hpath := h.storeAt.freelist.path
  rw [List.map_append, List.map_singleton, path_append_singleton,
    nextFree_pageOffset ht, linkTarget_inj] at hpath
  intro hsame
  have himage := congrArg StoreFile.image hsame
  have hlink : linkWord (pageAt file.image t) = indexToOffset index := by
    rw [← himage, pageAt_writePage_self, linkWord_linkPage]
  exact indexToOffset_ne_emptyList index (hlink.symm.trans hpath.2)

/-- The indices that are refused. -/
theorem HoldsStore.refused_iff (h : HoldsStore file size free)
    (hcall : freePage (some store) file index = (status, file')) :
    (status ≠ .ok ∧ file' = file) ↔ RefusesFree file index := by
  refine ⟨fun hrefused => ?_, fun hrefuses => hrefuses.unchanged h hcall⟩
  rcases indexToOffset_cases index with hzero | hneg | ⟨k, hpos, hk, hloc⟩
  · exact Or.inl hzero
  · apply Or.inr
    apply And.intro hneg
    rcases List.eq_nil_or_concat free with rfl | ⟨front, t, rfl⟩
    · exact h.storeAt.freelist.head_nil
    · rw [List.concat_eq_append] at h
      exact absurd hrefused.2 (h.free_neg hneg hcall)
  · obtain ⟨image', hresult, -⟩ := h.storeAt.free_any store hpos hk
    have hindex : indexToOffset index = indexToOffset (Int64.ofNat k) :=
      hloc.trans (indexToOffset_ofNat k).symm
    rw [← h.eq_reliable, ← freePage_congr hindex, hcall] at hresult
    exact absurd (congrArg Prod.fst hresult) hrefused.1

theorem HoldsStore.isPage_ofNat (h : HoldsStore file size free) {k : ℕ}
    (hpos : 1 ≤ k) (hk : k < size) : IsPage file (Int64.ofNat k) := by
  have hlimit := h.storeAt.lt_pageLimit hk
  constructor
  · exact pageCount_lt hpos (Nat.le_succ_of_le hlimit.le)
  · rw [h.storeAt.meta_size]
    exact pageCount_lt hk (Nat.le_succ_of_le h.storeAt.size_le)

/-- What a step of a run with the guard does. -/
theorem IsStore.freesOnlyPages {event : StoreEvent} (h : IsStore file)
    (hguard : FreesExisting file event)
    (hcall : storeStep store file event file') :
    FreesOnlyPages file event file' := by
  obtain ⟨size, free, h⟩ := h
  cases event with
  | alloc src status index =>
      rcases h.alloc_page hguard hcall with ⟨k, rest, rfl, rfl, rfl, h'⟩ |
          ⟨rfl, rfl, rfl, -, h'⟩ | ⟨hstatus, -⟩
      · apply h'.isPage_ofNat
        · exact (h.storeAt.freelist.inFile k List.mem_cons_self).1
        · exact h.storeAt.free_lt k List.mem_cons_self
      · apply h'.isPage_ofNat
        · exact h.storeAt.size_pos
        · exact Nat.lt_succ_self size
      · cases status with
        | ok => exact absurd rfl hstatus
        | _ => trivial
  | free index status =>
      intro hpage
      exact (hguard.resolve_left hpage).unchanged h hcall
  | get dest index status read => exact hguard.elim
  | put src index status => exact hguard.elim

/-- In a run from a fresh store in which only existing pages are freed: an
index is refused without any change exactly when it leads to the metadata page
or, while no page is free, to a negative offset; every page that is allocated
lies in the store; and no page is allocated twice without being freed. -/
theorem only_pages_freed {storefd : ℤ} {events : List StoreEvent}
    (hcreate : createNewBacking storefd [] = (.ok, file))
    (hrun : Run (Guarded (storeStep store) FreesExisting) file events file') :
    (∀ index status file'',
      freePage (some store) file' index = (status, file'') →
      ((status ≠ .ok ∧ file'' = file') ↔ RefusesFree file' index)) ∧
    Run (Ensuring (storeStep store) FreesOnlyPages) file events file' ∧
    ∀ front src index mid src' back,
      events = front ++ .alloc src .ok index :: mid ++
        .alloc src' .ok index :: back →
      ∃ status, .free index status ∈ mid := by
  have hcreated : IsStore file := ⟨1, [], holdsStore_created hcreate⟩
  refine ⟨?_, ?_, ?_⟩
  · intro index status file'' hcall
    obtain ⟨size, free, h⟩ : IsStore file' :=
      hrun.invariant (fun _ _ _ h hstep => IsStore.step h hstep) hcreated
    exact h.refused_iff hcall
  · apply hrun.ensuring (I := IsStore) ?_ hcreated
    intro s event t h hguard hcall
    exact ⟨h.freesOnlyPages hguard hcall, h.step ⟨hguard, hcall⟩⟩
  · intro front src index mid src' back heq
    exact hcreated.not_alloc_twice hrun heq

/-- On a fresh store page 1, which does not exist, is freed.  It is allocated
twice afterwards. -/
theorem missing_page_freed :
    ¬IsPage (reliable createdImage) 1 ∧
    ∃ file', Run (storeStep ⟨3⟩) (reliable createdImage)
      [.free 1 .ok, .alloc (some blankPage) .ok 1,
        .alloc (some blankPage) .ok 1] file' := by
  have hcreated := storeAt_createdImage
  have hnot : ¬IsPage (reliable createdImage) 1 := by
    rw [IsPage, hcreated.meta_size]
    decide
  obtain ⟨image₁, hfree, hlist, hsize, hlen, -⟩ :=
    hcreated.free_any (k := 1) ⟨3⟩ (by decide) (by decide)
  have hone : FreelistAt image₁ [1] emptyList := hlist
  have hin : ∀ k ≤ 1, InFile image₁ k := by
    intro k hk
    have hle : pageSize * (k + 1) ≤ pageSize * (1 + 1) :=
      Nat.mul_le_mul_left pageSize (by omega)
    exact hle.trans (hlen ▸ Nat.le_max_right _ _)
  obtain ⟨image₂, hrecycled, hempty, hsize₂, hin₂⟩ : ∃ image₂,
      allocPage (some blankPage) (some ⟨3⟩) (reliable image₁) =
        (.ok, Int64.ofNat 1, reliable image₂) ∧
      FreelistAt image₂ [] emptyList ∧
      metaSize (pageAt image₂ 0) = Int64.ofNat 1 ∧ InFile image₂ 0 := by
    refine ⟨_, allocPage_recycled ⟨3⟩ (hin 0 (by decide)) (by decide)
      (hin 1 (by decide)) hone.head_cons,
      hone.recycled blankPage List.not_mem_nil, ?_, inFile_writePage_self 0 _⟩
    rw [pageAt_writePage_self, metaSize_popHead, hsize]
  obtain ⟨file', hagain⟩ : ∃ file', allocPage (some blankPage) (some ⟨3⟩)
      (reliable image₂) = (.ok, Int64.ofNat 1, file') :=
    ⟨_, allocPage_appended ⟨3⟩ hin₂ (by decide) hempty.head_nil hsize₂⟩
  exact ⟨hnot, file', .cons hfree (.cons hrecycled (.cons hagain (.nil _)))⟩

/-- A page is allocated, and the metadata page is not freed. -/
theorem only_pages_freed_once :
    ∃ file', Run (Ensuring (storeStep ⟨3⟩) FreesOnlyPages)
      (reliable createdImage)
      [.alloc (some blankPage) .ok 1, .free 0 .metaPage] file' := by
  have hcreate := createNewBacking_reliable (show (3 : ℤ) ≠ -1 by decide)
  obtain ⟨image₁, halloc, -⟩ :=
    storeAt_createdImage.alloc_appended ⟨3⟩ (by decide) (some blankPage)
  have hzero : indexToOffset 0 = 0 := indexToOffset_zero.trans pageOffset_zero
  have hfree := freePage_zero ⟨3⟩ (reliable image₁) hzero
  have hrun : Run (Guarded (storeStep ⟨3⟩) FreesExisting)
      (reliable createdImage)
      [.alloc (some blankPage) .ok 1, .free 0 .metaPage]
      (reliable image₁) :=
    .cons ⟨nofun, halloc⟩ (.cons ⟨Or.inr (Or.inl hzero), hfree⟩ (.nil _))
  exact ⟨_, (only_pages_freed hcreate hrun).2.1⟩

end NickDB

import NickDB.Store.Wellformed

/-!
# Allocation without contents

`alloc_page` called without contents is to hand out a page of zeros.  A page
that is appended to the file is one.  A page taken off the list of free pages
is not: its byte offset is converted once more before the zeros are written, so
they go to another place, and the page keeps its link word.
-/

namespace NickDB

open Linked

variable {image : ByteFile UInt8} {file' : StoreFile} {size : ℕ}
  {free : List ℕ} {store : Backing} {status : Status} {index : PageIndex}

/-- The page `index` reads back as zeros, the other pages of the store are as
before, and the file has not grown past the last page. -/
structure BlankAllocated (store : Backing) (image : ByteFile UInt8)
    (size : ℕ) (index : PageIndex) (file' : StoreFile) : Prop where
  reads_blank : ∀ dest, ∃ file'',
    getPage dest (some store) file' index = (.ok, blankPage, file'')
  others_same : ∀ k, 1 ≤ k → k < size → index ≠ Int64.ofNat k →
    pageAt file'.image k = pageAt image k
  not_extended : (file'.image.length : ℤ) ≤
    max (image.length : ℤ) (4096 * (metaSize (pageAt file'.image 0)).toInt)

/-- The offset of a page that is converted to an offset once more leads
elsewhere. -/
theorem indexToOffset_pageOffset_ne {k : ℕ} (hpos : 1 ≤ k)
    (hk : k < pageLimit) : indexToOffset (pageOffset k) ≠ pageOffset k := by
  intro h
  have hint := congrArg Int64.toInt h
  rw [indexToOffset, Int64.toInt_mul, toInt_pageOffset hk,
    show (4096 : Int64).toInt = 4096 by decide, Int.bmod_def] at hint
  simp only [pageLimit] at hk
  split at hint <;> omega

/-! ## The two paths -/

/-- An appended page is blank. -/
theorem StoreAt.blankAllocated_of_empty (h : StoreAt image size [])
    (hcall : allocPage none (some store) (reliable image) =
      (status, index, file')) (hok : status = .ok) :
    BlankAllocated store image size index file' := by
  rcases Nat.lt_or_eq_of_le h.size_le with hsize | rfl
  · obtain ⟨image', hresult, hstore', hpage, hsame, hlength⟩ :=
      h.alloc_appended store hsize none
    obtain ⟨rfl, rfl, rfl⟩ : Status.ok = status ∧ Int64.ofNat size = index ∧
        reliable image' = file' := by
      simpa using hresult.symm.trans hcall
    refine ⟨fun dest => ⟨reliable image', ?_⟩, ?_, ?_⟩
    · rw [hstore'.get_page store h.size_pos (Nat.lt_succ_self size), hpage]
      rfl
    · intro k hpos hk _
      exact hsame k (by omega) (by omega)
    · rw [hlength, hstore'.toInt_size]
      simp only [pageSize]
      omega
  · have hresult := h.alloc_limit store none
    obtain ⟨rfl, -, -⟩ : Status.badWrite = status ∧ errSet = index ∧
        reliable image = file' := by
      simpa using hresult.symm.trans hcall
    cases hok

/-- A recycled page still has its link word. -/
theorem StoreAt.not_blankAllocated_of_recycled {k : ℕ}
    (h : StoreAt image size (k :: free))
    (hblank : ¬indexToOffset (pageOffset k) < 0)
    (hcall : allocPage none (some store) (reliable image) =
      (status, index, file')) :
    status = .ok ∧ ¬BlankAllocated store image size index file' := by
  have hk : k < size := h.free_lt k List.mem_cons_self
  have hklimit : k < pageLimit := h.lt_pageLimit hk
  have hpos : 1 ≤ k := (h.freelist.inFile k List.mem_cons_self).1
  have hk0 : k ≠ 0 := Nat.one_le_iff_ne_zero.mp hpos
  obtain ⟨j, hj, hloc⟩ := exists_page_of_not_neg hblank
  have hresult := allocPage_recycled_blank store h.inFile_zero
    hklimit (h.inFile hk) h.freelist.head_cons hj hloc
  obtain ⟨rfl, rfl, rfl⟩ := by
    simpa only [Prod.mk.injEq] using hresult.symm.trans hcall
  refine ⟨rfl, fun hblankAllocated => ?_⟩
  have hjk : k ≠ j := by
    rintro rfl
    exact indexToOffset_pageOffset_ne hpos hklimit hloc
  obtain ⟨file'', hget⟩ := hblankAllocated.reads_blank blankPage
  rw [getPage_page store blankPage hpos hklimit (indexToOffset_ofNat k)
    (h.inFile hk).writePage.writePage] at hget
  have hpage := congrArg (fun result => result.2.1) hget
  rw [pageAt_two_writes blankPage _ hk0 hjk] at hpage
  exact h.ne_blankPage List.mem_cons_self hpage

/-- Allocation without contents keeps its promise exactly when no page is free
or the second conversion of the offset makes the call fail. -/
theorem allocPage_blank_iff (h : StoreAt image size free)
    (hcall : allocPage none (some store) (reliable image) =
      (status, index, file')) :
    (status = .ok → BlankAllocated store image size index file') ↔
      (freelistHead (pageAt image 0) = emptyList ∨
        indexToOffset (freelistHead (pageAt image 0)) < 0) := by
  cases free with
  | nil =>
      have hhead := h.freelist.head_nil
      exact iff_of_true (h.blankAllocated_of_empty hcall) (Or.inl hhead)
  | cons k rest =>
      have hk : k < pageLimit := h.freelist.limit k List.mem_cons_self
      rw [h.freelist.head_cons]
      by_cases hneg : indexToOffset (pageOffset k) < 0
      · have hresult := allocPage_recycled_blank_neg store
          h.inFile_zero hk (h.inFile (h.free_lt k List.mem_cons_self))
          h.freelist.head_cons hneg
        obtain ⟨rfl, -, -⟩ : Status.badWrite = status ∧ errSet = index ∧
            reliable image = file' := by
          simpa using hresult.symm.trans hcall
        exact iff_of_true nofun (Or.inr hneg)
      · obtain ⟨hok, hnot⟩ := h.not_blankAllocated_of_recycled hneg hcall
        refine iff_of_false (fun hall => hnot (hall hok)) ?_
        exact not_or.mpr ⟨pageOffset_ne_emptyList hk, hneg⟩

/-! ## A store of two pages whose second page is free -/

/-- The store after one page was allocated and freed. -/
def oneFreePage : ByteFile UInt8 :=
  writePage (writePage createdImage 1 (linkPage (-1))) 0
    (setTail (setHead (setSize blankPage 2) (pageOffset 1)) (pageOffset 1))

theorem storeAt_oneFreePage : StoreAt oneFreePage 2 [1] where
  size_pos := by decide
  size_le := by decide
  meta_size := by
    rw [oneFreePage, pageAt_writePage_self, metaSize_setTail,
      metaSize_setHead, metaSize_setSize]
    rfl
  in_file := by
    rw [oneFreePage, length_writePage, length_writePage]
    exact (Nat.le_max_right _ _).trans (Nat.le_max_left _ _)
  freelist := by
    refine FreelistAt.enqueue_nil (by decide) (by decide)
      (inFile_writePage_self 1 _).writePage ?_ ?_ ?_
    · rw [oneFreePage, pageAt_writePage_self, freelistHead_setTail,
        freelistHead_setHead]
    · rw [oneFreePage, pageAt_writePage_self, freelistTail_setTail]
    · rw [oneFreePage, pageAt_writePage_of_ne _ (by decide),
        pageAt_writePage_self, linkWord_linkPage]
  free_lt := by decide

theorem pageAt_oneFreePage : pageAt oneFreePage 1 = linkPage (-1) := by
  rw [oneFreePage, pageAt_writePage_of_ne _ (by decide), pageAt_writePage_self]

theorem length_oneFreePage : oneFreePage.length = pageSize * 2 := by
  simp only [oneFreePage, createdImage, length_writePage, ByteFile.empty]
  decide

/-- The recycled page 1 reads back with its link word. -/
theorem allocPage_blank_fails :
    StoreAt oneFreePage 2 [1] ∧ oneFreePage.length = pageSize * 2 ∧
    ∃ index file', allocPage none (some ⟨3⟩) (reliable oneFreePage) =
        (.ok, index, file') ∧
      ¬BlankAllocated ⟨3⟩ oneFreePage 2 index file' := by
  refine ⟨storeAt_oneFreePage, length_oneFreePage, ?_⟩
  generalize hcall : allocPage none (some ⟨3⟩) (reliable oneFreePage) = result
  obtain ⟨status, index, file'⟩ := result
  obtain ⟨rfl, hnot⟩ :=
    storeAt_oneFreePage.not_blankAllocated_of_recycled (by decide) hcall
  exact ⟨index, file', rfl, hnot⟩

/-- On a fresh store the promise is kept. -/
theorem allocPage_blank_fresh :
    ∃ index file', allocPage none (some ⟨3⟩) (reliable createdImage) =
        (.ok, index, file') ∧
      BlankAllocated ⟨3⟩ createdImage 1 index file' := by
  obtain ⟨image', hcall, -⟩ :=
    storeAt_createdImage.alloc_appended ⟨3⟩ (by decide) none
  have hempty : freelistHead (pageAt createdImage 0) = emptyList :=
    storeAt_createdImage.freelist.head_nil
  exact ⟨_, _, hcall, (allocPage_blank_iff storeAt_createdImage hcall).mpr
    (Or.inl hempty) rfl⟩

end NickDB

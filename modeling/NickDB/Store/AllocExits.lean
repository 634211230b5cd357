import NickDB.Store.Completed
import NickDB.Store.InUse

/-!
# The exits of `alloc_page`

`alloc_page` reports a failure twice, by its status and by the value
`ERR_SET` it leaves in the page index.  The two reports are written by hand at
every exit.  This module states what each exit leaves behind, under any outcome
of the transfers, and exactly when the two reports agree.
-/

namespace NickDB

/-- The status and the page index left behind tell the same: the number of a
page of the store on success, and `ERR_SET` otherwise. -/
structure IndexAgrees (status : Status) (index : PageIndex)
    (file' : StoreFile) : Prop where
  ok_iff : status = .ok ↔ index ≠ errSet
  failed : status ≠ .ok → index = errSet
  page : status = .ok → IsPage file' index

/-- No page is free, the file can grow, and contents are given: the metadata
page is read and the new page is written blank, but the transfer of the
contents does not complete. -/
structure ContentsFail (src : Option Page) (store : Option Backing)
    (file : StoreFile) : Prop where
  store_some : store ≠ none
  src_some : src ≠ none
  no_free : freelistHead (pageAt file.image 0) = emptyList
  grows : (metaSize (pageAt file.image 0)).toInt < pageLimit
  read : Completes file.schedule 0
  blank : Completes file.schedule 1
  contents : ¬Completes file.schedule 2

/-- What an exit of `alloc_page` leaves behind that keeps the two reports
together: `index` and `metadata` are the page index and the metadata page of a
call that succeeds. -/
inductive AllocExit (index : PageIndex) (metadata : Page) :
    Status × PageIndex × StoreFile → Prop
  | ok {file' : StoreFile} (h : pageAt file'.image 0 = metadata) :
      AllocExit index metadata (.ok, index, file')
  | failed {status : Status} {file' : StoreFile} (h : status ≠ .ok) :
      AllocExit index metadata (status, errSet, file')

variable {image : ByteFile UInt8} {schedule : List Transfer}
  {src : Option Page} {store : Option Backing} {file file' : StoreFile}
  {size : ℕ} {free : List ℕ} {status : Status} {index : PageIndex}
  {metadata : Page}

/-! ## One lemma for each branch -/

theorem indexAgrees_failed (h : status ≠ .ok) :
    IndexAgrees status errSet file' :=
  ⟨iff_of_false h fun hne => hne rfl, fun _ => rfl, fun hok => absurd hok h⟩

theorem AllocExit.indexAgrees {result : PageIndex}
    (h : AllocExit index metadata (status, result, file'))
    (hpos : 0 < index) (hlt : index < metaSize metadata) :
    IndexAgrees status result file' := by
  cases h with
  | ok hmeta =>
      have hne : index ≠ errSet := by
        rintro rfl
        exact absurd hpos (by decide)
      refine ⟨iff_of_true rfl hne, fun h => absurd rfl h, fun _ => ⟨hpos, ?_⟩⟩
      rwa [hmeta]
  | failed hstatus => exact indexAgrees_failed hstatus

/-- The write of the metadata page, at the end of each branch. -/
theorem allocExit_metaWrite (index : PageIndex) (metadata : Page)
    (file : StoreFile) :
    AllocExit index metadata
      (let (metaWrite, file) := pwrite file metadata (indexToOffset 0)
      if metaWrite ≠ pageSize then (.badWrite, errSet, file)
      else (.ok, index, file)) := by
  obtain ⟨⟨metaWrite, file'⟩, hmeta⟩ : ∃ result,
    pwrite file metadata (indexToOffset 0) = result := ⟨_, rfl⟩
  simp only [hmeta]
  split
  next => exact .failed (by decide)
  next hwritten =>
    obtain rfl : metaWrite = pageSize := not_not.mp hwritten
    obtain ⟨-, himage⟩ := pwrite_full (congrArg Prod.fst hmeta)
    apply AllocExit.ok
    rw [hmeta, indexToOffset_zero, position_pageOffset (by decide),
      write_eq_writePage] at himage
    rw [himage, pageAt_writePage_self]

/-- A page is written before the metadata page. -/
theorem allocExit_writes (index : PageIndex) (metadata page : Page)
    (offset : ByteOffset) (file : StoreFile) :
    AllocExit index metadata
      (let (write, file) := pwrite file page offset
      if write ≠ pageSize then (.badWrite, errSet, file)
      else
        let (metaWrite, file) := pwrite file metadata (indexToOffset 0)
        if metaWrite ≠ pageSize then (.badWrite, errSet, file)
        else (.ok, index, file)) := by
  simp only []
  split
  next => exact .failed (by decide)
  next => exact allocExit_metaWrite index metadata _

/-- Every exit of the branch that takes the first free page. -/
theorem allocRecycled_exit (src : Option Page) (metadata : Page)
    (file : StoreFile) :
    ∃ next, AllocExit (offsetToIndex (freelistHead metadata))
      (popHead metadata next) (allocRecycled src metadata file) := by
  obtain ⟨⟨read, nextpage, file₁⟩, hread⟩ : ∃ result,
    pread file (fun _ : Fin 8 => 0) (freelistHead metadata) = result :=
    ⟨_, rfl⟩
  refine ⟨Words.load nextpage 0 (by decide), ?_⟩
  simp only [allocRecycled, hread]
  split
  next => exact .failed (by decide)
  next =>
    cases src with
    | some src => exact allocExit_writes _ _ src _ file₁
    | none => exact allocExit_writes _ _ blankPage _ file₁

/-- The write of the contents of an appended page. -/
def contentsWrite (src : Page) (metadata : Page) (file : StoreFile) :
    ℤ × StoreFile :=
  pwrite (pwrite file blankPage (indexToOffset (metaSize metadata))).2 src
    (indexToOffset (metaSize metadata))

/-- Every exit of the branch that appends a page, but for the one after the
write of the contents. -/
theorem allocAppended_exit
    (h : ∀ page, src = some page →
      (pwrite file blankPage (indexToOffset (metaSize metadata))).1 =
        pageSize → (contentsWrite page metadata file).1 = pageSize) :
    AllocExit (metaSize metadata) (setSize metadata (metaSize metadata + 1))
      (allocAppended src metadata file) := by
  simp only [allocAppended]
  by_cases hblank : (pwrite file blankPage
      (indexToOffset (metaSize metadata))).1 = pageSize
  · rw [if_neg (not_not.mpr hblank)]
    cases src with
    | none => exact allocExit_metaWrite _ _ _
    | some page =>
        have hcontents := h page rfl hblank
        unfold contentsWrite at hcontents
        simp only []
        rw [if_neg (not_not.mpr hcontents)]
        exact allocExit_metaWrite _ _ _
  · rw [if_pos hblank]
    exact .failed (by decide)

/-- The exit after the write of the contents stores a status code. -/
theorem allocAppended_contents {page : Page}
    (hblank : (pwrite file blankPage
      (indexToOffset (metaSize metadata))).1 = pageSize)
    (hcontents : (contentsWrite page metadata file).1 ≠ pageSize) :
    allocAppended (some page) metadata file =
      (.badWrite, Status.err.code, (contentsWrite page metadata file).2) := by
  unfold contentsWrite at hcontents ⊢
  simp only [allocAppended]
  rw [if_neg (not_not.mpr hblank), if_pos hcontents]

/-! ## The calls -/

/-- When the new page is written blank and its contents are not. -/
theorem contentsWrite_iff {page : Page} (hlimit : size ≤ pageLimit)
    (hsize : metaSize metadata = Int64.ofNat size) :
    ((pwrite ⟨image, schedule⟩ blankPage
        (indexToOffset (metaSize metadata))).1 = pageSize ∧
      (contentsWrite page metadata ⟨image, schedule⟩).1 ≠ pageSize) ↔
      size < pageLimit ∧ Completes schedule 0 ∧ ¬Completes schedule 1 := by
  rw [contentsWrite, hsize, indexToOffset_ofNat]
  rcases Nat.lt_or_eq_of_le hlimit with hlt | rfl
  · obtain ⟨blank, image₁, hblank, hblankDone, -⟩ :=
      @pwrite_page_iff image schedule size blankPage hlt
    obtain ⟨contents, image₂, hcontents, hcontentsDone, -⟩ :=
      @pwrite_page_iff image₁ schedule.tail size page hlt
    rw [hblank, hcontents, ← completes_tail, ← hblankDone, ← hcontentsDone]
    exact (and_iff_right hlt).symm
  · rw [pwrite_neg _ _ pageOffset_limit_neg]
    refine iff_of_false (fun h => ?_) fun h => Nat.lt_irrefl _ h.1
    have hmoved : (-1 : ℤ) = pageSize := h.1
    simp only [pageSize] at hmoved
    omega

/-- The call once the metadata page is read. -/
theorem StoreAt.allocPage_read (h : StoreAt image size free)
    (hstore : store ≠ none) (hread : Completes schedule 0) :
    allocPage src store ⟨image, schedule⟩ =
      if freelistHead (pageAt image 0) ≠ emptyList then
        allocRecycled src (pageAt image 0) ⟨image, schedule.tail⟩
      else allocAppended src (pageAt image 0) ⟨image, schedule.tail⟩ := by
  obtain ⟨read, metadata, hcall, hdone, hmeta⟩ :=
    @pread_page_iff image schedule 0 blankPage (by decide) h.inFile_zero
  have hfull := hdone.mpr hread
  obtain rfl := hmeta hfull
  simp only [allocPage, if_neg hstore, indexToOffset_zero, hcall]
  rw [if_neg (not_not.mpr hfull)]

/-- The metadata page cannot be read whole. -/
theorem StoreAt.allocPage_cut_off (h : StoreAt image size free)
    (hstore : store ≠ none) (hread : ¬Completes schedule 0) :
    allocPage src store ⟨image, schedule⟩ =
      (.badRead, errSet, ⟨image, schedule.tail⟩) := by
  obtain ⟨read, metadata, hcall, hdone, -⟩ :=
    @pread_page_iff image schedule 0 blankPage (by decide) h.inFile_zero
  have hshort : read ≠ pageSize := fun hfull => hread (hdone.mp hfull)
  simp only [allocPage, if_neg hstore, indexToOffset_zero, hcall]
  rw [if_pos hshort]

/-! ## The two reports -/

/-- The exit after the write of the contents leaves a status code in the page
index, where it reads as page 1. -/
theorem ContentsFail.allocPage (hfails : ContentsFail src store file)
    (h : StoreAt file.image size free) :
    ∃ file', allocPage src store file =
      (.badWrite, Status.err.code, file') := by
  obtain ⟨image, schedule⟩ := file
  obtain ⟨page, rfl⟩ := Option.ne_none_iff_exists'.mp hfails.src_some
  have hsize : size < pageLimit := by
    have hlt := hfails.grows
    rw [h.toInt_size] at hlt
    exact Int.ofNat_lt.mp hlt
  obtain ⟨hblank, hcontents⟩ := (contentsWrite_iff h.size_le h.meta_size).mpr
    ⟨hsize, completes_tail.mpr hfails.blank,
      fun hdone => hfails.contents (completes_tail.mp hdone)⟩
  rw [h.allocPage_read hfails.store_some hfails.read,
    if_neg (not_not.mpr hfails.no_free)]
  exact ⟨_, allocAppended_contents hblank hcontents⟩

/-- The branch that appends a page. -/
theorem StoreAt.allocAppended_agrees (h : StoreAt image size free)
    (hcall : allocAppended src (pageAt image 0) ⟨image, schedule⟩ =
      (status, index, file'))
    (hdone : src ≠ none → size < pageLimit → Completes schedule 0 →
      Completes schedule 1) : IndexAgrees status index file' := by
  have hexit : AllocExit (metaSize (pageAt image 0))
      (setSize (pageAt image 0) (metaSize (pageAt image 0) + 1))
      (allocAppended src (pageAt image 0) ⟨image, schedule⟩) := by
    apply allocAppended_exit
    rintro page rfl hblank
    by_contra hcontents
    obtain ⟨hsize, hfirst, hsecond⟩ :=
      (contentsWrite_iff h.size_le h.meta_size).mp ⟨hblank, hcontents⟩
    exact hsecond (hdone (Option.some_ne_none page) hsize hfirst)
  rw [hcall] at hexit
  apply hexit.indexAgrees
  · rw [h.meta_size]
    exact pageCount_lt h.size_pos (Nat.le_succ_of_le h.size_le)
  · rw [metaSize_setSize, h.meta_size]
    change _ < Int64.ofNat size + Int64.ofNat 1
    rw [← Int64.ofNat_add]
    exact pageCount_lt (Nat.lt_succ_self size) (Nat.succ_le_succ h.size_le)

/-- The branch that takes the first free page. -/
theorem StoreAt.allocRecycled_agrees {k : ℕ}
    (h : StoreAt image size (k :: free))
    (hcall : allocRecycled src (pageAt image 0) ⟨image, schedule⟩ =
      (status, index, file')) : IndexAgrees status index file' := by
  have hk : k < size := h.free_lt k List.mem_cons_self
  have hlimit := h.freelist.limit k List.mem_cons_self
  have hkpos : 1 ≤ k := (h.freelist.inFile k List.mem_cons_self).1
  obtain ⟨next, hexit⟩ :=
    allocRecycled_exit src (pageAt image 0) ⟨image, schedule⟩
  rw [hcall, h.freelist.head_cons, offsetToIndex_pageOffset hlimit] at hexit
  apply hexit.indexAgrees
  · exact pageCount_lt hkpos (Nat.le_succ_of_le hlimit.le)
  · rw [metaSize_popHead, h.meta_size]
    exact pageCount_lt hk (Nat.le_succ_of_le h.size_le)

/-- Every other exit keeps the two reports together. -/
theorem StoreAt.allocPage_agrees (h : StoreAt file.image size free)
    (hcall : allocPage src store file = (status, index, file'))
    (hdone : ¬ContentsFail src store file) :
    IndexAgrees status index file' := by
  obtain ⟨image, schedule⟩ := file
  by_cases hstore : store = none
  · rw [allocPage, if_pos hstore] at hcall
    cases hcall
    exact indexAgrees_failed (by decide)
  by_cases hread : Completes schedule 0
  · rw [h.allocPage_read hstore hread] at hcall
    cases free with
    | nil =>
        have hhead := h.freelist.head_nil
        rw [if_neg (not_not.mpr hhead)] at hcall
        apply h.allocAppended_agrees hcall
        intro hsrc hsize hblank
        by_contra hcontents
        have hgrows : (metaSize (pageAt image 0)).toInt < pageLimit := by
          rw [h.toInt_size]
          exact Int.ofNat_lt.mpr hsize
        exact hdone ⟨hstore, hsrc, hhead, hgrows, hread,
          completes_tail.mp hblank,
          fun hwritten => hcontents (completes_tail.mpr hwritten)⟩
    | cons k rest =>
        have hlimit := h.freelist.limit k List.mem_cons_self
        have hhead : freelistHead (pageAt image 0) ≠ emptyList :=
          h.freelist.head_cons ▸ pageOffset_ne_emptyList hlimit
        rw [if_pos hhead] at hcall
        exact h.allocRecycled_agrees hcall
  · rw [h.allocPage_cut_off hstore hread] at hcall
    cases hcall
    exact indexAgrees_failed (by decide)

/-- The status and the page index agree at every exit but for the one after the
write of the contents of a new page. -/
theorem allocPage_agrees_iff (h : StoreAt file.image size free)
    (hcall : allocPage src store file = (status, index, file')) :
    IndexAgrees status index file' ↔ ¬ContentsFail src store file := by
  constructor
  · intro hagrees hfails
    obtain ⟨file₁, hresult⟩ := hfails.allocPage h
    rw [hresult] at hcall
    cases hcall
    exact absurd (hagrees.failed (by decide)) (by decide)
  · exact h.allocPage_agrees hcall

/-- A page is allocated on a file on which all transfers succeed. -/
theorem allocPage_agrees_created :
    ∃ file', allocPage (some blankPage) (some ⟨3⟩) (reliable createdImage) =
        (.ok, 1, file') ∧ IndexAgrees .ok 1 file' := by
  obtain ⟨image', hcall, -⟩ :=
    storeAt_createdImage.alloc_appended ⟨3⟩ (by decide) (some blankPage)
  have hdone : ¬ContentsFail (some blankPage) (some ⟨3⟩)
      (reliable createdImage) := fun hfails => hfails.contents rfl
  exact ⟨_, hcall, (allocPage_agrees_iff storeAt_createdImage hcall).mpr hdone⟩

/-- On a fresh store the contents of the new page cannot be written. -/
theorem allocPage_not_agrees :
    ∃ file', StoreAt createdImage 1 [] ∧
      allocPage (some blankPage) (some ⟨3⟩)
        ⟨createdImage, [.full, .full, .failed]⟩ =
          (.badWrite, Status.err.code, file') ∧
      ¬IndexAgrees .badWrite Status.err.code file' := by
  have hfails : ContentsFail (some blankPage) (some ⟨3⟩)
      ⟨createdImage, [.full, .full, .failed]⟩ := by
    refine ⟨Option.some_ne_none _, Option.some_ne_none _,
      storeAt_createdImage.freelist.head_nil, ?_, rfl, rfl, ?_⟩
    · change (metaSize (pageAt createdImage 0)).toInt < pageLimit
      rw [storeAt_createdImage.meta_size]
      decide
    · simp [Completes, Transfer.count]
  obtain ⟨file', hcall⟩ := hfails.allocPage storeAt_createdImage
  refine ⟨file', storeAt_createdImage, hcall, fun h => ?_⟩
  exact absurd (h.failed (by decide)) (by decide)

end NickDB

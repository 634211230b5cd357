import NickDB.Store.Paging

/-!
# What the store's functions do on a reliable file

One equation for each path through `alloc_page`, `free_page`, `get_page` and
`put_page` when all transfers succeed, in terms of page numbers.  Later modules
use these equations and never unfold the functions again.
-/

namespace NickDB

variable {image : ByteFile UInt8} (store : Backing)

/-! ## Fields of pages -/

@[simp] theorem linkWord_linkPage (offset : ByteOffset) :
    linkWord (linkPage offset) = offset :=
  Words.load_store_self _ _ _ _

@[simp] theorem linkWord_blankPage : linkWord blankPage = 0 :=
  Words.load_zero 0 (by decide)

@[simp] theorem metaSize_setSize (page : Page) (size : PageIndex) :
    metaSize (setSize page size) = size :=
  Words.load_store_self _ _ _ _

@[simp] theorem metaSize_setHead (page : Page) (offset : ByteOffset) :
    metaSize (setHead page offset) = metaSize page :=
  Words.load_store_of_disjoint _ _ _ (by decide)

@[simp] theorem metaSize_setTail (page : Page) (offset : ByteOffset) :
    metaSize (setTail page offset) = metaSize page :=
  Words.load_store_of_disjoint _ _ _ (by decide)

@[simp] theorem freelistHead_setSize (page : Page) (size : PageIndex) :
    freelistHead (setSize page size) = freelistHead page :=
  Words.load_store_of_disjoint _ _ _ (by decide)

@[simp] theorem freelistHead_setHead (page : Page) (offset : ByteOffset) :
    freelistHead (setHead page offset) = offset :=
  Words.load_store_self _ _ _ _

@[simp] theorem freelistHead_setTail (page : Page) (offset : ByteOffset) :
    freelistHead (setTail page offset) = freelistHead page :=
  Words.load_store_of_disjoint _ _ _ (by decide)

@[simp] theorem freelistTail_setSize (page : Page) (size : PageIndex) :
    freelistTail (setSize page size) = freelistTail page :=
  Words.load_store_of_disjoint _ _ _ (by decide)

@[simp] theorem freelistTail_setHead (page : Page) (offset : ByteOffset) :
    freelistTail (setHead page offset) = freelistTail page :=
  Words.load_store_of_disjoint _ _ _ (by decide)

@[simp] theorem freelistTail_setTail (page : Page) (offset : ByteOffset) :
    freelistTail (setTail page offset) = offset :=
  Words.load_store_self _ _ _ _

@[simp] theorem metaSize_popHead (page : Page) (next : ByteOffset) :
    metaSize (popHead page next) = metaSize page := by
  unfold popHead
  split <;> simp

@[simp] theorem freelistHead_popHead (page : Page) (next : ByteOffset) :
    freelistHead (popHead page next) = next := by
  unfold popHead
  split <;> simp

theorem freelistTail_popHead (page : Page) (next : ByteOffset) :
    freelistTail (popHead page next) =
      if freelistHead page = freelistTail page then next
      else freelistTail page := by
  unfold popHead
  split <;> simp

/-- A write of the metadata page. -/
theorem pwrite_metadata (metadata : Page) :
    pwrite (reliable image) metadata (pageOffset 0) =
      ((pageSize : ℤ), reliable (writePage image 0 metadata)) :=
  pwrite_page metadata (by decide)

/-! ## `create_new_backing` -/

/-- The metadata page of a fresh store. -/
def freshMetadata : Page := setTail (setHead (setSize blankPage 1) (-1)) (-1)

/-- The image `create_new_backing` writes. -/
def createdImage : ByteFile UInt8 := writePage ByteFile.empty 0 freshMetadata

theorem createNewBacking_reliable {storefd : ℤ} (hfd : storefd ≠ -1) :
    createNewBacking storefd [] = (.ok, reliable createdImage) := by
  have hwrite : pwrite (reliable ByteFile.empty) freshMetadata
      (pageOffset 0) = ((pageSize : ℤ), reliable createdImage) :=
    pwrite_page freshMetadata (by decide)
  rw [freshMetadata] at hwrite
  simp only [createNewBacking, if_neg hfd, indexToOffset_zero, hwrite]
  simp

/-- The file of a store that was just created. -/
theorem eq_createdImage {storefd : ℤ} {file : StoreFile}
    (h : createNewBacking storefd [] = (.ok, file)) :
    file = reliable createdImage := by
  have hfd : storefd ≠ -1 := by
    rintro rfl
    simp [createNewBacking] at h
  rw [createNewBacking_reliable hfd] at h
  exact (congrArg Prod.snd h).symm

/-! ## `alloc_page` -/

theorem allocPage_of_head {src : Option Page} (hin : InFile image 0)
    (hhead : freelistHead (pageAt image 0) ≠ emptyList) :
    allocPage src (some store) (reliable image) =
      allocRecycled src (pageAt image 0) (reliable image) := by
  simp only [allocPage, indexToOffset_zero, pread_page _ (by decide) hin]
  simp [hhead]

theorem allocPage_of_empty {src : Option Page} (hin : InFile image 0)
    (hhead : freelistHead (pageAt image 0) = emptyList) :
    allocPage src (some store) (reliable image) =
      allocAppended src (pageAt image 0) (reliable image) := by
  simp only [allocPage, indexToOffset_zero, pread_page _ (by decide) hin]
  simp [hhead]

/-- A list of free pages that starts at a negative offset cannot be read. -/
theorem allocPage_head_neg {src : Option Page} (hin : InFile image 0)
    (hneg : freelistHead (pageAt image 0) < 0)
    (hne : freelistHead (pageAt image 0) ≠ emptyList) :
    allocPage src (some store) (reliable image) =
      (.badRead, errSet, reliable image) := by
  rw [allocPage_of_head store hin hne]
  simp only [allocRecycled, pread_neg _ _ hneg]
  simp

/-- Nor can one whose link word does not lie in the file. -/
theorem allocPage_head_past_end {src : Option Page} (hin : InFile image 0)
    (hneg : ¬freelistHead (pageAt image 0) < 0)
    (hend : image.length < position (freelistHead (pageAt image 0)) + 8) :
    allocPage src (some store) (reliable image) =
      (.badRead, errSet, reliable image) := by
  have hne : freelistHead (pageAt image 0) ≠ emptyList := by
    intro h
    exact hneg (h ▸ by decide)
  obtain ⟨hread, hfile⟩ :=
    pread_short (fun _ : Fin 8 => 0) (by decide) hneg hend
  have hcount : (pread (reliable image) (fun _ : Fin 8 => 0)
      (freelistHead (pageAt image 0))).1 ≠ 8 := hread
  rw [allocPage_of_head store hin hne]
  simp only [allocRecycled, if_pos hcount, hfile]

/-- The offset at which `alloc_page` writes the contents of the page it takes
off a list that starts at `head`. -/
def contentsOffset (head : ByteOffset) : Option Page → ByteOffset
  | some _ => head
  | none => indexToOffset head

/-- Taking a page off the list when its link word lies in the file, whatever
offset the list starts at. -/
theorem allocPage_taken {src : Option Page} (hin : InFile image 0)
    (hneg : ¬freelistHead (pageAt image 0) < 0)
    (hword : position (freelistHead (pageAt image 0)) + 8 ≤ image.length)
    (hoffset : ¬contentsOffset (freelistHead (pageAt image 0)) src < 0) :
    allocPage src (some store) (reliable image) =
      (.ok, offsetToIndex (freelistHead (pageAt image 0)),
        reliable (writePage (image.write
          (position (contentsOffset (freelistHead (pageAt image 0)) src))
          (src.getD blankPage)) 0
          (popHead (pageAt image 0) (Words.load (image.read
            (position (freelistHead (pageAt image 0))) 8) 0 (by decide))))) := by
  have hne : freelistHead (pageAt image 0) ≠ emptyList := by
    intro h
    exact hneg (h ▸ by decide)
  rw [allocPage_of_head store hin hne]
  cases src with
  | none =>
      simp only [contentsOffset] at hoffset ⊢
      simp only [allocRecycled, pread_reliable _ hneg hword,
        pwrite_reliable blankPage hoffset, indexToOffset_zero, pwrite_metadata]
      simp
  | some src =>
      simp only [contentsOffset] at hoffset ⊢
      simp only [allocRecycled, pread_reliable _ hneg hword,
        pwrite_reliable src hoffset, indexToOffset_zero, pwrite_metadata]
      simp

/-- The same where the contents go to a negative offset. -/
theorem allocPage_taken_neg {src : Option Page} (hin : InFile image 0)
    (hneg : ¬freelistHead (pageAt image 0) < 0)
    (hword : position (freelistHead (pageAt image 0)) + 8 ≤ image.length)
    (hoffset : contentsOffset (freelistHead (pageAt image 0)) src < 0) :
    allocPage src (some store) (reliable image) =
      (.badWrite, errSet, reliable image) := by
  have hne : freelistHead (pageAt image 0) ≠ emptyList := by
    intro h
    exact hneg (h ▸ by decide)
  rw [allocPage_of_head store hin hne]
  cases src with
  | none =>
      simp only [contentsOffset] at hoffset
      simp only [allocRecycled, pread_reliable _ hneg hword,
        pwrite_neg _ blankPage hoffset]
      simp [pageSize]
  | some src => exact absurd hoffset hneg

/-- The link word of a head that is a page of the file can be read. -/
theorem link_readable {k : ℕ} (hk : k < pageLimit) (hkin : InFile image k)
    (hhead : freelistHead (pageAt image 0) = pageOffset k) :
    ¬freelistHead (pageAt image 0) < 0 ∧
      position (freelistHead (pageAt image 0)) + 8 ≤ image.length := by
  rw [hhead, position_pageOffset hk]
  exact ⟨not_pageOffset_neg hk, hkin.link_le⟩

/-- Recycling a page whose contents go to the page number `j`. -/
theorem allocPage_recycled_at {src : Option Page} {k j : ℕ}
    (hin : InFile image 0) (hk : k < pageLimit) (hkin : InFile image k)
    (hhead : freelistHead (pageAt image 0) = pageOffset k)
    (hj : j < pageLimit)
    (hoffset : contentsOffset (pageOffset k) src = pageOffset j) :
    allocPage src (some store) (reliable image) =
      (.ok, Int64.ofNat k, reliable (writePage
        (writePage image j (src.getD blankPage)) 0
        (popHead (pageAt image 0) (linkWord (pageAt image k))))) := by
  obtain ⟨hneg, hword⟩ := link_readable hk hkin hhead
  have hcontents : ¬contentsOffset (freelistHead (pageAt image 0)) src < 0 := by
    rw [hhead, hoffset]
    exact not_pageOffset_neg hj
  rw [allocPage_taken store hin hneg hword hcontents]
  simp only [hoffset, hhead, position_pageOffset hk, position_pageOffset hj,
    offsetToIndex_pageOffset hk, load_read_eq_linkWord, write_eq_writePage]

/-- Recycling a page for given contents. -/
theorem allocPage_recycled {src : Page} {k : ℕ} (hin : InFile image 0)
    (hk : k < pageLimit) (hkin : InFile image k)
    (hhead : freelistHead (pageAt image 0) = pageOffset k) :
    allocPage (some src) (some store) (reliable image) =
      (.ok, Int64.ofNat k, reliable (writePage (writePage image k src) 0
        (popHead (pageAt image 0) (linkWord (pageAt image k))))) :=
  allocPage_recycled_at store hin hk hkin hhead hk rfl

/-- Recycling a page without contents: the page of zeros goes to the offset
that converting the byte offset once more gives. -/
theorem allocPage_recycled_blank {k j : ℕ} (hin : InFile image 0)
    (hk : k < pageLimit) (hkin : InFile image k)
    (hhead : freelistHead (pageAt image 0) = pageOffset k)
    (hj : j < pageLimit) (hblank : indexToOffset (pageOffset k) = pageOffset j) :
    allocPage none (some store) (reliable image) =
      (.ok, Int64.ofNat k, reliable (writePage (writePage image j blankPage) 0
        (popHead (pageAt image 0) (linkWord (pageAt image k))))) :=
  allocPage_recycled_at store hin hk hkin hhead hj hblank

/-- The same where that offset is negative. -/
theorem allocPage_recycled_blank_neg {k : ℕ} (hin : InFile image 0)
    (hk : k < pageLimit) (hkin : InFile image k)
    (hhead : freelistHead (pageAt image 0) = pageOffset k)
    (hblank : indexToOffset (pageOffset k) < 0) :
    allocPage none (some store) (reliable image) =
      (.badWrite, errSet, reliable image) := by
  obtain ⟨hneg, hword⟩ := link_readable hk hkin hhead
  exact allocPage_taken_neg store hin hneg hword (hhead ▸ hblank)

/-- Appending a page. -/
theorem allocPage_appended {src : Option Page} {n : ℕ} (hin : InFile image 0)
    (hn : n < pageLimit)
    (hhead : freelistHead (pageAt image 0) = emptyList)
    (hsize : metaSize (pageAt image 0) = Int64.ofNat n) :
    allocPage src (some store) (reliable image) =
      (.ok, Int64.ofNat n,
        reliable (writePage (writePage image n (src.getD blankPage)) 0
          (setSize (pageAt image 0) (Int64.ofNat (n + 1))))) := by
  have hsucc : Int64.ofNat n + 1 = Int64.ofNat (n + 1) := by
    rw [Int64.ofNat_add]
    rfl
  rw [allocPage_of_empty store hin hhead]
  cases src with
  | none =>
      simp only [allocAppended, hsize, indexToOffset_ofNat,
        pwrite_page blankPage hn, indexToOffset_zero, pwrite_metadata, hsucc]
      simp
  | some src =>
      simp only [allocAppended, hsize, indexToOffset_ofNat,
        pwrite_page blankPage hn, pwrite_page src hn,
        writePage_writePage_self, indexToOffset_zero, pwrite_metadata, hsucc]
      simp

/-- The file cannot grow past the largest offset. -/
theorem allocPage_appended_limit {src : Option Page} (hin : InFile image 0)
    (hhead : freelistHead (pageAt image 0) = emptyList)
    (hsize : metaSize (pageAt image 0) = Int64.ofNat pageLimit) :
    allocPage src (some store) (reliable image) =
      (.badWrite, errSet, reliable image) := by
  rw [allocPage_of_empty store hin hhead]
  simp only [allocAppended, hsize, indexToOffset_ofNat,
    pwrite_neg _ blankPage pageOffset_limit_neg]
  simp [pageSize]

/-! ## `free_page` -/

theorem freePage_zero (file : StoreFile) {index : PageIndex}
    (hloc : indexToOffset index = 0) :
    freePage (some store) file index = (.metaPage, file) :=
  if_pos hloc

theorem freePage_of_empty {index : PageIndex} (hin : InFile image 0)
    (hloc : indexToOffset index ≠ 0)
    (hempty : freelistTail (pageAt image 0) = -1 ∧
      freelistHead (pageAt image 0) = -1) :
    freePage (some store) (reliable image) index =
      freeFirst (pageAt image 0) (indexToOffset index) (reliable image) := by
  simp only [freePage, if_neg hloc, indexToOffset_zero,
    pread_page _ (by decide) hin, if_pos hempty]
  simp

theorem freePage_of_nonempty {index : PageIndex} (hin : InFile image 0)
    (hloc : indexToOffset index ≠ 0)
    (hnonempty : ¬(freelistTail (pageAt image 0) = -1 ∧
      freelistHead (pageAt image 0) = -1)) :
    freePage (some store) (reliable image) index =
      freeAppended (pageAt image 0) (indexToOffset index) (reliable image) := by
  simp only [freePage, if_neg hloc, indexToOffset_zero,
    pread_page _ (by decide) hin, if_neg hnonempty]
  simp

/-- Freeing a page while no page is free. -/
theorem freePage_first {index : PageIndex} {k : ℕ} (hin : InFile image 0)
    (hpos : 1 ≤ k) (hk : k < pageLimit)
    (hloc : indexToOffset index = pageOffset k)
    (hempty : freelistTail (pageAt image 0) = -1 ∧
      freelistHead (pageAt image 0) = -1) :
    freePage (some store) (reliable image) index =
      (.ok, reliable (writePage (writePage image k (linkPage (-1))) 0
        (setTail (setHead (pageAt image 0) (pageOffset k)) (pageOffset k)))) := by
  have hne : indexToOffset index ≠ 0 := hloc ▸ pageOffset_ne_zero hpos hk
  rw [freePage_of_empty store hin hne hempty, hloc]
  simp only [freeFirst, pwrite_page _ hk, indexToOffset_zero, pwrite_metadata]
  simp

theorem freePage_first_neg {index : PageIndex} (hin : InFile image 0)
    (hloc : indexToOffset index < 0)
    (hempty : freelistTail (pageAt image 0) = -1 ∧
      freelistHead (pageAt image 0) = -1) :
    freePage (some store) (reliable image) index =
      (.badWrite, reliable image) := by
  have hne : indexToOffset index ≠ 0 := offset_ne_zero_of_neg hloc
  rw [freePage_of_empty store hin hne hempty]
  simp only [freeFirst, pwrite_neg _ _ hloc]
  simp [pageSize]

/-- Freeing a page while a page is free, whatever offset the list ends at. -/
theorem freePage_appended_at {index : PageIndex} {k : ℕ} (hin : InFile image 0)
    (hpos : 1 ≤ k) (hk : k < pageLimit)
    (hloc : indexToOffset index = pageOffset k)
    (htail : ¬freelistTail (pageAt image 0) < 0) :
    freePage (some store) (reliable image) index =
      (.ok, reliable (writePage (writePage
        (image.write (position (freelistTail (pageAt image 0)))
          (linkPage (pageOffset k))) k (linkPage (-1))) 0
        (setTail (pageAt image 0) (pageOffset k)))) := by
  have hne : indexToOffset index ≠ 0 := hloc ▸ pageOffset_ne_zero hpos hk
  have hnonempty : ¬(freelistTail (pageAt image 0) = -1 ∧
      freelistHead (pageAt image 0) = -1) := by
    intro h
    exact htail (h.1 ▸ by decide)
  rw [freePage_of_nonempty store hin hne hnonempty, hloc]
  simp only [freeAppended, pwrite_reliable _ htail, pwrite_page _ hk,
    indexToOffset_zero, pwrite_metadata]
  simp

/-- Freeing a page while the page number `t` is the last free one. -/
theorem freePage_appended {index : PageIndex} {k t : ℕ} (hin : InFile image 0)
    (hpos : 1 ≤ k) (hk : k < pageLimit)
    (hloc : indexToOffset index = pageOffset k) (ht : t < pageLimit)
    (htail : freelistTail (pageAt image 0) = pageOffset t) :
    freePage (some store) (reliable image) index =
      (.ok, reliable (writePage
        (writePage (writePage image t (linkPage (pageOffset k))) k
          (linkPage (-1))) 0
        (setTail (pageAt image 0) (pageOffset k)))) := by
  have hneg : ¬freelistTail (pageAt image 0) < 0 :=
    htail ▸ not_pageOffset_neg ht
  rw [freePage_appended_at store hin hpos hk hloc hneg, htail,
    position_pageOffset ht, write_eq_writePage]

/-- A page at a negative offset is linked behind the last free page before the
write of the page itself fails. -/
theorem freePage_appended_neg {index : PageIndex} {t : ℕ}
    (hin : InFile image 0) (hloc : indexToOffset index < 0)
    (ht : t < pageLimit)
    (htail : freelistTail (pageAt image 0) = pageOffset t) :
    freePage (some store) (reliable image) index =
      (.badWrite,
        reliable (writePage image t (linkPage (indexToOffset index)))) := by
  have hne : indexToOffset index ≠ 0 := offset_ne_zero_of_neg hloc
  have hnonempty : ¬(freelistTail (pageAt image 0) = -1 ∧
      freelistHead (pageAt image 0) = -1) := fun h =>
    pageOffset_ne_emptyList ht (htail.symm.trans h.1)
  rw [freePage_of_nonempty store hin hne hnonempty]
  simp only [freeAppended, htail, pwrite_page _ ht, pwrite_neg _ _ hloc]
  simp [pageSize]

/-- A last free page at a negative offset cannot be relinked. -/
theorem freePage_tail_neg {index : PageIndex} (hin : InFile image 0)
    (hloc : indexToOffset index ≠ 0)
    (htail : freelistTail (pageAt image 0) < 0)
    (hnonempty : ¬(freelistTail (pageAt image 0) = -1 ∧
      freelistHead (pageAt image 0) = -1)) :
    freePage (some store) (reliable image) index =
      (.badWrite, reliable image) := by
  rw [freePage_of_nonempty store hin hloc hnonempty]
  simp only [freeAppended, pwrite_neg _ _ htail]
  simp [pageSize]

/-! ## `get_page` and `put_page` -/

theorem getPage_no_store (dest : Page) (file : StoreFile)
    (index : PageIndex) : getPage dest none file index =
      (if indexToOffset index = 0 then .metaPage else .noFile, dest, file) := by
  unfold getPage
  simp only []
  split
  · rfl
  · rfl

theorem putPage_no_store (src : Page) (file : StoreFile)
    (index : PageIndex) : putPage src none file index =
      (if indexToOffset index = 0 then .metaPage else .noFile, file) := by
  unfold putPage
  simp only []
  split
  · rfl
  · rfl

theorem getPage_zero (dest : Page) (file : StoreFile) {index : PageIndex}
    (hloc : indexToOffset index = 0) :
    getPage dest (some store) file index = (.metaPage, dest, file) :=
  if_pos hloc

theorem getPage_neg (dest : Page) (file : StoreFile) {index : PageIndex}
    (hloc : indexToOffset index < 0) :
    getPage dest (some store) file index = (.badSeek, dest, file) := by
  have hne : indexToOffset index ≠ 0 := offset_ne_zero_of_neg hloc
  simp [getPage, if_neg hne, lseekFails, hloc]

theorem getPage_page (dest : Page) {index : PageIndex} {k : ℕ}
    (hpos : 1 ≤ k) (hk : k < pageLimit)
    (hloc : indexToOffset index = pageOffset k) (hin : InFile image k) :
    getPage dest (some store) (reliable image) index =
      (.ok, pageAt image k, reliable image) := by
  have hne : pageOffset k ≠ 0 := pageOffset_ne_zero hpos hk
  simp only [getPage, hloc, if_neg hne, lseekFails, not_pageOffset_neg hk,
    pread_page dest hk hin]
  simp

/-- A page that starts past the end of the file cannot be read. -/
theorem getPage_past_end (dest : Page) {index : PageIndex} {k : ℕ}
    (hpos : 1 ≤ k) (hk : k < pageLimit)
    (hloc : indexToOffset index = pageOffset k)
    (hend : image.length ≤ pageSize * k) :
    getPage dest (some store) (reliable image) index =
      (.badRead, dest, reliable image) := by
  have hne : pageOffset k ≠ 0 := pageOffset_ne_zero hpos hk
  have hread := pread_past_end dest (not_pageOffset_neg hk)
    ((position_pageOffset hk).symm ▸ hend)
  simp only [getPage, hloc, if_neg hne, lseekFails, not_pageOffset_neg hk,
    hread]
  simp [pageSize]

theorem putPage_zero (src : Page) (file : StoreFile) {index : PageIndex}
    (hloc : indexToOffset index = 0) :
    putPage src (some store) file index = (.metaPage, file) :=
  if_pos hloc

theorem putPage_neg (src : Page) (file : StoreFile) {index : PageIndex}
    (hloc : indexToOffset index < 0) :
    putPage src (some store) file index = (.badSeek, file) := by
  have hne : indexToOffset index ≠ 0 := offset_ne_zero_of_neg hloc
  simp [putPage, if_neg hne, lseekFails, hloc]

theorem putPage_page (src : Page) {index : PageIndex} {k : ℕ}
    (hpos : 1 ≤ k) (hk : k < pageLimit)
    (hloc : indexToOffset index = pageOffset k) :
    putPage src (some store) (reliable image) index =
      (.ok, reliable (writePage image k src)) := by
  have hne : pageOffset k ≠ 0 := pageOffset_ne_zero hpos hk
  simp only [putPage, hloc, if_neg hne, lseekFails, not_pageOffset_neg hk,
    pwrite_page src hk]
  simp

/-! ## Pages transferred under any schedule -/

theorem getPage_image (dest : Page) (store : Option Backing)
    (file : StoreFile) (index : PageIndex) :
    (getPage dest store file index).2.2.image = file.image := by
  have himage := pread_image file dest (indexToOffset index)
  simp only [getPage]
  split
  · rfl
  split
  · rfl
  split
  · rfl
  · split <;> exact himage

/-- A page that was read is the one in the file. -/
theorem getPage_ok {dest page : Page} {store : Option Backing}
    {file file' : StoreFile} {index : PageIndex}
    (h : getPage dest store file index = (.ok, page, file')) :
    page = file.image.read (position (indexToOffset index)) pageSize := by
  unfold getPage at h
  simp only [] at h
  split at h
  next => cases h
  next =>
    split at h
    next => cases h
    next =>
      split at h
      next => cases h
      next =>
        split at h
        next => cases h
        next hread =>
          cases h
          exact (pread_full (not_not.mp hread)).2

/-- A page that was put is in the file, behind the metadata page. -/
theorem putPage_ok {src : Page} {store : Option Backing} {file : StoreFile}
    {index : PageIndex} (h : (putPage src store file index).1 = .ok) :
    indexToOffset index ≠ 0 ∧ ¬indexToOffset index < 0 ∧
      (putPage src store file index).2.image =
        file.image.write (position (indexToOffset index)) src := by
  unfold putPage at h ⊢
  simp only [] at h ⊢
  split at h
  next => cases h
  next hzero =>
    split at h
    next => cases h
    next hstore =>
      split at h
      next => cases h
      next hseek =>
        split at h
        next => cases h
        next hwrite =>
          obtain ⟨hneg, himage⟩ := pwrite_full (not_not.mp hwrite)
          rw [if_neg hzero, if_neg hstore, if_neg hseek, if_neg hwrite]
          exact ⟨hzero, hneg, himage⟩

/-- A page that was read lies behind the metadata page. -/
theorem getPage_ok_offset {dest page : Page} {store : Option Backing}
    {file file' : StoreFile} {index : PageIndex}
    (h : getPage dest store file index = (.ok, page, file')) :
    indexToOffset index ≠ 0 ∧ ¬indexToOffset index < 0 := by
  unfold getPage at h
  simp only [] at h
  split at h
  next => cases h
  next hzero =>
    split at h
    next => cases h
    next =>
      split at h
      next => cases h
      next hseek => exact ⟨hzero, by simpa [lseekFails] using hseek⟩

/-- A read does not change a file on which all transfers succeed. -/
theorem getPage_file {dest page : Page} {store : Option Backing}
    {file file' : StoreFile} {index : PageIndex} {status : Status}
    (hschedule : file.schedule = [])
    (h : getPage dest store file index = (status, page, file')) :
    file' = file := by
  have hadvance : file.advance = file := by
    simp [StoreFile.advance, hschedule, StoreFile.ext_iff]
  have hread : (pread file dest (indexToOffset index)).2.2 = file := by
    unfold pread
    split
    · rfl
    · simp only []
      split
      · exact hadvance
      · exact hadvance
  unfold getPage at h
  simp only [] at h
  split at h
  next =>
    cases h
    rfl
  next =>
    split at h
    next =>
      cases h
      rfl
    next =>
      split at h
      next =>
        cases h
        rfl
      next =>
        split at h
        next =>
          cases h
          exact hread
        next =>
          cases h
          exact hread

/-! ## Indices with the same offset -/

theorem freePage_congr {store : Option Backing} {file : StoreFile}
    {index index' : PageIndex}
    (h : indexToOffset index = indexToOffset index') :
    freePage store file index = freePage store file index' := by
  simp only [freePage, h]

theorem putPage_congr {src : Page} {store : Option Backing}
    {file : StoreFile} {index index' : PageIndex}
    (h : indexToOffset index = indexToOffset index') :
    putPage src store file index = putPage src store file index' := by
  simp only [putPage, h]

end NickDB

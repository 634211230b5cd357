import NickDB.Store.ExistingPages

/-!
# Which pages can be read

`get_page` looks at no count of pages: a page exists if a whole page can be read
at its place in the file.  So it recognises exactly the pages of the store as
long as the file reaches past the last page by less than a page.  The calls keep
to that bound except where they write at an offset that they take from the
file.  `alloc_page` takes the head of the list of free pages, which it converts
once more when it has no contents to write, and `free_page` takes the tail.
-/

namespace NickDB

open Runs

/-- `get_page` succeeds on exactly the pages of the store, less the metadata
page, among the indices whose byte offset does not wrap around. -/
def RecognisesPages (store : Backing) (file : StoreFile) : Prop :=
  ∀ dest index, -2 ^ 51 < index.toInt → index.toInt < 2 ^ 51 →
    ((getPage dest (some store) file index).1 = .ok ↔
      1 ≤ index ∧ index < metaSize (pageAt file.image 0))

/-- `free_page` and `put_page` are given pages of the store. -/
def NamesPages (file : StoreFile) : StoreEvent → Prop
  | .alloc _ _ _ => True
  | .free index _ => IsPage file index
  | .get _ _ _ _ => True
  | .put _ index _ => IsPage file index

/-- The offset lies before the end of the last page. -/
def InsideStore (file : StoreFile) (offset : ByteOffset) : Prop :=
  offset.toInt < 4096 * (metaSize (pageAt file.image 0)).toInt

/-- The offsets at which a call writes a page and which it takes from the file
lie inside the store, or the call fails before that. -/
def WritesInside (file : StoreFile) : StoreEvent → Prop
  | .alloc src _ _ =>
      let head := freelistHead (pageAt file.image 0)
      head < 0 ∨ file.image.length < position head + 8 ∨
        InsideStore file (contentsOffset head src)
  | .free _ _ => InsideStore file (freelistTail (pageAt file.image 0))
  | _ => True

variable {file file' : StoreFile} {image image' : ByteFile UInt8} {size : ℕ}
  {store : Backing} {status : Status} {index : PageIndex}

/-! ## Reading at the end of the file -/

/-- A page can be read exactly if it lies in the file. -/
theorem getPage_ok_iff (dest : Page) {k : ℕ} (hpos : 1 ≤ k)
    (hk : k < pageLimit) (hloc : indexToOffset index = pageOffset k) :
    (getPage dest (some store) (reliable image) index).1 = .ok ↔
      InFile image k := by
  by_cases hin : InFile image k
  · rw [getPage_page store dest hpos hk hloc hin]
    exact iff_of_true rfl hin
  · have hneg : ¬pageOffset k < 0 := not_pageOffset_neg hk
    have hend : image.length < position (pageOffset k) + pageSize := by
      rw [position_pageOffset hk]
      simp only [InFile, pageSize] at hin ⊢
      omega
    have hread := (pread_short dest (by decide) hneg hend).1
    have hne : pageOffset k ≠ 0 := pageOffset_ne_zero hpos hk
    simp only [getPage, hloc, if_neg hne, lseekFails, hneg]
    simp [hread, hin]

/-- Below the limit the byte offset of an index does not wrap around. -/
theorem toInt_indexToOffset (hlow : -2 ^ 51 < index.toInt)
    (hhigh : index.toInt < 2 ^ 51) :
    (indexToOffset index).toInt = 4096 * index.toInt := by
  rw [indexToOffset, Int64.toInt_mul,
    show (4096 : Int64).toInt = 4096 by decide, Int.bmod_def]
  split <;> omega

/-! ## The pages of a file -/

/-- The file holds the pages that the metadata page counts. -/
structure CountsPages (file : StoreFile) (size : ℕ) : Prop where
  schedule : file.schedule = []
  size_pos : 1 ≤ size
  size_le : size ≤ pageLimit
  meta_size : metaSize (pageAt file.image 0) = Int64.ofNat size
  in_file : pageSize * size ≤ file.image.length

/-- The file is no longer than pages written at 64-bit offsets make it. -/
def Addressable (file : StoreFile) : Prop :=
  file.image.length < pageSize * (pageLimit + 1)

theorem CountsPages.eq_reliable (h : CountsPages file size) :
    file = reliable file.image :=
  StoreFile.ext rfl h.schedule

theorem CountsPages.inFile_zero (h : CountsPages file size) :
    InFile file.image 0 := by
  have hpos := h.size_pos
  have hin := h.in_file
  simp only [InFile, pageSize] at hin ⊢
  omega

theorem CountsPages.toInt_size (h : CountsPages file size) :
    (metaSize (pageAt file.image 0)).toInt = size := by
  rw [h.meta_size, toInt_pageCount h.size_le]

/-- The pages are recognised exactly if the file ends before a further page
does. -/
theorem CountsPages.recognises_iff (h : CountsPages file size)
    (hbounded : Addressable file) :
    RecognisesPages store file ↔
      file.image.length < pageSize * (size + 1) := by
  have hin := h.in_file
  have hle := h.size_le
  constructor
  · intro hrecognises
    rcases Nat.lt_or_eq_of_le hle with hlt | rfl
    · have hint : (Int64.ofNat size).toInt = size := toInt_pageIndex hlt
      have hlow : -2 ^ 51 < (Int64.ofNat size).toInt := by omega
      have hhigh : (Int64.ofNat size).toInt < 2 ^ 51 := by
        simp only [pageLimit] at hlt
        omega
      have hread := hrecognises blankPage (Int64.ofNat size) hlow hhigh
      rw [h.eq_reliable, getPage_ok_iff blankPage h.size_pos hlt
        (indexToOffset_ofNat size), ← h.eq_reliable, h.meta_size] at hread
      by_contra hlen
      exact Int64.lt_irrefl (hread.mp (Nat.le_of_not_lt hlen)).2
    · exact hbounded
  · intro hlen dest index hlow hhigh
    have hoffset := toInt_indexToOffset hlow hhigh
    have hone : (1 : Int64).toInt = 1 := by decide
    rw [Int64.le_iff_toInt_le, Int64.lt_iff_toInt_lt, h.toInt_size, hone]
    rcases indexToOffset_cases index with hzero | hneg | ⟨k, hpos, hk, hloc⟩
    · rw [getPage_zero store dest file hzero]
      rw [hzero, Int64.toInt_zero] at hoffset
      exact iff_of_false nofun (by omega)
    · rw [getPage_neg store dest file hneg]
      rw [Int64.lt_iff_toInt_lt, hoffset, Int64.toInt_zero] at hneg
      exact iff_of_false nofun (by omega)
    · rw [h.eq_reliable, getPage_ok_iff dest hpos hk hloc]
      rw [hloc, toInt_pageOffset hk] at hoffset
      simp only [InFile, pageSize] at *
      omega

/-- What a call makes of a file of `size` pages: a file of `size'` pages, which
ends before a further page does exactly if the call writes inside the store. -/
structure LeavesPages (file : StoreFile) (size : ℕ) (event : StoreEvent)
    (file' : StoreFile) (size' : ℕ) : Prop where
  counts : CountsPages file' size'
  bounded : Addressable file → Addressable file'
  end_iff : NamesPages file event →
    file.image.length < pageSize * (size + 1) →
    (file'.image.length < pageSize * (size' + 1) ↔ WritesInside file event)

/-! ## One lemma for each call -/

/-- Something is written, the metadata page last. -/
theorem CountsPages.grown {event : StoreEvent} {n : ℕ}
    (h : CountsPages file size)
    (hlen : image'.length = max file.image.length n)
    (hn : n < pageSize * (pageLimit + 1))
    (hsize : metaSize (pageAt image' 0) = Int64.ofNat size)
    (hend : NamesPages file event →
      file.image.length < pageSize * (size + 1) →
      (image'.length < pageSize * (size + 1) ↔ WritesInside file event)) :
    LeavesPages file size event (reliable image') size where
  counts :=
    { schedule := rfl
      size_pos := h.size_pos
      size_le := h.size_le
      meta_size := hsize
      in_file := by
        rw [hlen]
        exact h.in_file.trans (Nat.le_max_left _ _) }
  bounded := by
    intro hbounded
    rw [Addressable, hlen]
    exact max_lt hbounded hn
  end_iff := hend

/-- Nothing is written. -/
theorem CountsPages.unchanged {event : StoreEvent} (h : CountsPages file size)
    (hinside : WritesInside file event) :
    LeavesPages file size event file size where
  counts := h
  bounded := id
  end_iff := fun _ hend => iff_of_true hend hinside

/-- A negative offset lies before the end of the store. -/
theorem CountsPages.insideStore_of_neg {offset : ByteOffset}
    (h : CountsPages file size) (hneg : offset < 0) :
    InsideStore file offset := by
  rw [Int64.lt_iff_toInt_lt, Int64.toInt_zero] at hneg
  rw [InsideStore, h.toInt_size]
  omega

theorem position_of_not_neg {offset : ByteOffset} (h : ¬offset < 0) :
    (position offset : ℤ) = offset.toInt := by
  rw [Int64.lt_iff_toInt_lt, Int64.toInt_zero] at h
  rw [position, Int64.toNatClampNeg]
  omega

/-- A page written at an offset taken from the file. -/
theorem CountsPages.end_iff {offset : ByteOffset} (h : CountsPages file size)
    (hend : file.image.length < pageSize * (size + 1))
    (hoffset : ¬offset < 0) :
    max file.image.length (position offset + pageSize) <
        pageSize * (size + 1) ↔ InsideStore file offset := by
  have hposition := position_of_not_neg hoffset
  rw [InsideStore, h.toInt_size]
  simp only [pageSize] at *
  omega

theorem position_lt (offset : ByteOffset) :
    position offset + pageSize < pageSize * (pageLimit + 1) := by
  have hlt := offset.toInt_lt
  have hposition : position offset < 2 ^ 63 := by
    rw [position, Int64.toNatClampNeg]
    omega
  simp only [pageSize, pageLimit]
  omega

/-- Appending a page. -/
theorem CountsPages.extended (h : CountsPages file size)
    (hlt : size < pageLimit) (page : Page) (src : Option Page)
    (hempty : freelistHead (pageAt file.image 0) = emptyList) :
    LeavesPages file size (.alloc src status index)
      (reliable (writePage (writePage file.image size page) 0
        (setSize (pageAt file.image 0) (Int64.ofNat (size + 1)))))
      (size + 1) := by
  have hlen : (writePage (writePage file.image size page) 0
      (setSize (pageAt file.image 0) (Int64.ofNat (size + 1)))).length =
        max file.image.length (pageSize * (size + 1)) := by
    rw [h.inFile_zero.writePage.length_eq, length_writePage]
  refine ⟨⟨rfl, Nat.le_add_left 1 size, hlt, ?_, ?_⟩, ?_, ?_⟩
  · rw [pageAt_writePage_self, metaSize_setSize]
  · rw [hlen]
    exact Nat.le_max_right _ _
  · intro hbounded
    rw [Addressable] at hbounded ⊢
    rw [hlen]
    simp only [pageSize, pageLimit] at hbounded hlt ⊢
    omega
  · intro _ hend
    rw [hlen]
    refine iff_of_true ?_ (Or.inl ?_)
    · simp only [pageSize] at hend ⊢
      omega
    · rw [hempty]
      decide

/-- Taking the head of the list of free pages. -/
theorem CountsPages.taken {src : Option Page} (h : CountsPages file size)
    (hneg : ¬freelistHead (pageAt file.image 0) < 0)
    (hword : position (freelistHead (pageAt file.image 0)) + 8 ≤
      file.image.length)
    (hoffset : ¬contentsOffset (freelistHead (pageAt file.image 0)) src < 0)
    (page : Page) (link : ByteOffset) :
    LeavesPages file size (.alloc src status index)
      (reliable (writePage (file.image.write (position (contentsOffset
        (freelistHead (pageAt file.image 0)) src)) page) 0
          (popHead (pageAt file.image 0) link))) size := by
  have hguard : WritesInside file (.alloc src status index) ↔
      InsideStore file
        (contentsOffset (freelistHead (pageAt file.image 0)) src) := by
    simp only [WritesInside, hneg, hword.not_gt, false_or]
  have hlen : (writePage (file.image.write (position (contentsOffset
      (freelistHead (pageAt file.image 0)) src)) page) 0
        (popHead (pageAt file.image 0) link)).length =
      max file.image.length (position (contentsOffset
        (freelistHead (pageAt file.image 0)) src) + pageSize) := by
    have hzero : pageSize * (0 + 1) ≤ file.image.length := h.inFile_zero
    rw [length_writePage, ByteFile.length_write _ _ _ (by decide)]
    omega
  apply h.grown hlen (position_lt _)
  · rw [pageAt_writePage_self, metaSize_popHead, h.meta_size]
  · intro _ hend
    rw [hlen, hguard]
    exact h.end_iff hend hoffset

theorem CountsPages.alloc {src : Option Page} (h : CountsPages file size)
    (hcall : storeStep store file (.alloc src status index) file') :
    ∃ size', LeavesPages file size (.alloc src status index) file' size' := by
  have hin := h.inFile_zero
  have hcall' := hcall
  rw [h.eq_reliable] at hcall'
  -- the exits that leave the file as it is
  have hrefused : ∀ code, allocPage src (some store) (reliable file.image) =
        (code, errSet, reliable file.image) →
      WritesInside file (.alloc src status index) →
      ∃ size', LeavesPages file size (.alloc src status index) file' size' := by
    intro code hresult hguard
    obtain ⟨-, -, rfl⟩ := alloc_result_unique hresult hcall'
    rw [← h.eq_reliable]
    exact ⟨size, h.unchanged hguard⟩
  by_cases hneg : freelistHead (pageAt file.image 0) < 0
  · have hguard : WritesInside file (.alloc src status index) := Or.inl hneg
    by_cases hempty : freelistHead (pageAt file.image 0) = emptyList
    · rcases Nat.lt_or_eq_of_le h.size_le with hlt | rfl
      · have hresult := @allocPage_appended _ store src size hin hlt hempty
          h.meta_size
        obtain ⟨-, -, rfl⟩ := alloc_result_unique hresult hcall'
        exact ⟨size + 1, h.extended hlt _ src hempty⟩
      · exact hrefused _
          (allocPage_appended_limit store hin hempty h.meta_size) hguard
    · exact hrefused _ (allocPage_head_neg store hin hneg hempty) hguard
  rcases Nat.lt_or_ge file.image.length
      (position (freelistHead (pageAt file.image 0)) + 8) with hshort | hword
  · exact hrefused _ (allocPage_head_past_end store hin hneg hshort)
      (Or.inr (Or.inl hshort))
  by_cases hoffset : contentsOffset (freelistHead (pageAt file.image 0)) src < 0
  · have hinside : InsideStore file
        (contentsOffset (freelistHead (pageAt file.image 0)) src) :=
      h.insideStore_of_neg hoffset
    exact hrefused _ (allocPage_taken_neg store hin hneg hword hoffset)
      (Or.inr (Or.inr hinside))
  · have hresult := allocPage_taken store hin hneg hword hoffset
    obtain ⟨-, -, rfl⟩ := alloc_result_unique hresult hcall'
    exact ⟨size, h.taken hneg hword hoffset _ _⟩

/-- A page of the store has a number below the number of pages. -/
theorem CountsPages.page_number (h : CountsPages file size)
    (hindex : IsPage file index) :
    ∃ k, 1 ≤ k ∧ k < size ∧ indexToOffset index = pageOffset k := by
  obtain ⟨k, rfl, hpos, hk⟩ := hindex.exists_number h.meta_size h.size_le
  exact ⟨k, hpos, hk, indexToOffset_ofNat k⟩

theorem CountsPages.lt_size {k : ℕ} (h : CountsPages file size)
    (hindex : IsPage file index) (hk : k < pageLimit)
    (hloc : indexToOffset index = pageOffset k) : k < size := by
  obtain ⟨j, -, hj, hloc'⟩ := h.page_number hindex
  rw [hloc, pageOffset_inj hk (hj.trans_le h.size_le)] at hloc'
  exact hloc' ▸ hj

/-- A page with a number below the number of pages lies in the file. -/
theorem CountsPages.page_le {k : ℕ} (h : CountsPages file size)
    (hk : k < size) : pageSize * (k + 1) ≤ file.image.length :=
  (Nat.mul_le_mul_left pageSize hk).trans h.in_file

theorem page_end_lt {k : ℕ} (hk : k < pageLimit) :
    pageSize * (k + 1) < pageSize * (pageLimit + 1) := by
  simp only [pageSize, pageLimit] at hk ⊢
  omega

/-- Freeing a page while the list of free pages is empty. -/
theorem CountsPages.freed_first {k : ℕ} (h : CountsPages file size)
    (hk : k < pageLimit) (hloc : indexToOffset index = pageOffset k)
    (htail : freelistTail (pageAt file.image 0) < 0) :
    LeavesPages file size (.free index status)
      (reliable (writePage (writePage file.image k (linkPage (-1))) 0
        (setTail (setHead (pageAt file.image 0) (pageOffset k))
          (pageOffset k)))) size := by
  have hlen : (writePage (writePage file.image k (linkPage (-1))) 0
      (setTail (setHead (pageAt file.image 0) (pageOffset k))
        (pageOffset k))).length =
      max file.image.length (pageSize * (k + 1)) := by
    rw [h.inFile_zero.writePage.length_eq, length_writePage]
  apply h.grown hlen (page_end_lt hk)
  · rw [pageAt_writePage_self, metaSize_setTail, metaSize_setHead,
      h.meta_size]
  · intro hpage hend
    rw [hlen, Nat.max_eq_left (h.page_le (h.lt_size hpage hk hloc))]
    exact iff_of_true hend (h.insideStore_of_neg htail)

/-- Freeing a page behind the tail of the list of free pages. -/
theorem CountsPages.freed_behind {k : ℕ} (h : CountsPages file size)
    (hk : k < pageLimit) (hloc : indexToOffset index = pageOffset k)
    (htail : ¬freelistTail (pageAt file.image 0) < 0) :
    LeavesPages file size (.free index status)
      (reliable (writePage (writePage (file.image.write
        (position (freelistTail (pageAt file.image 0)))
          (linkPage (pageOffset k))) k (linkPage (-1))) 0
        (setTail (pageAt file.image 0) (pageOffset k)))) size := by
  have hlen : (writePage (writePage (file.image.write
      (position (freelistTail (pageAt file.image 0)))
        (linkPage (pageOffset k))) k (linkPage (-1))) 0
      (setTail (pageAt file.image 0) (pageOffset k))).length =
      max file.image.length (max (position
        (freelistTail (pageAt file.image 0)) + pageSize)
          (pageSize * (k + 1))) := by
    have hzero : pageSize * (0 + 1) ≤ file.image.length := h.inFile_zero
    have hle := hzero.trans ((le_max_left file.image.length
      (position (freelistTail (pageAt file.image 0)) + pageSize)).trans
        (le_max_left _ (pageSize * (k + 1))))
    rw [length_writePage, length_writePage,
      ByteFile.length_write _ _ _ (by decide), max_eq_left hle, max_assoc]
  apply h.grown hlen (max_lt (position_lt _) (page_end_lt hk))
  · rw [pageAt_writePage_self, metaSize_setTail, h.meta_size]
  · intro hpage hend
    have hsame : max file.image.length (pageSize * (k + 1)) =
        file.image.length :=
      Nat.max_eq_left (h.page_le (h.lt_size hpage hk hloc))
    rw [hlen, max_left_comm, hsame, max_comm]
    exact h.end_iff hend htail

theorem CountsPages.free (h : CountsPages file size)
    (hindex : ¬indexToOffset index < 0)
    (hcall : storeStep store file (.free index status) file') :
    LeavesPages file size (.free index status) file' size := by
  have hin := h.inFile_zero
  rcases indexToOffset_cases index with hloc | hneg | ⟨k, hpos, hk, hloc⟩
  · obtain ⟨-, rfl⟩ := free_result_unique (freePage_zero store file hloc) hcall
    refine ⟨h, id, fun hpage _ => ?_⟩
    obtain ⟨k, hpos, hk, hloc'⟩ := h.page_number hpage
    rw [hloc] at hloc'
    exact absurd hloc'.symm (pageOffset_ne_zero hpos (hk.trans_le h.size_le))
  · exact absurd hneg hindex
  rw [h.eq_reliable] at hcall
  by_cases htail : freelistTail (pageAt file.image 0) < 0
  · by_cases hempty : freelistTail (pageAt file.image 0) = -1 ∧
        freelistHead (pageAt file.image 0) = -1
    · have hresult := freePage_first store hin hpos hk hloc hempty
      obtain ⟨-, rfl⟩ := free_result_unique hresult hcall
      exact h.freed_first hk hloc htail
    · have hresult := freePage_tail_neg store hin
        (hloc ▸ pageOffset_ne_zero hpos hk) htail hempty
      obtain ⟨-, rfl⟩ := free_result_unique hresult hcall
      rw [← h.eq_reliable]
      exact h.unchanged (h.insideStore_of_neg htail)
  · have hresult := freePage_appended_at store hin hpos hk hloc htail
    obtain ⟨-, rfl⟩ := free_result_unique hresult hcall
    exact h.freed_behind hk hloc htail

theorem CountsPages.put {src : Page} (h : CountsPages file size)
    (hcall : storeStep store file (.put src index status) file') :
    LeavesPages file size (.put src index status) file' size := by
  rcases indexToOffset_cases index with hloc | hneg | ⟨k, hpos, hk, hloc⟩
  · obtain ⟨-, rfl⟩ := put_result_unique
      (putPage_zero store src file hloc) hcall
    exact h.unchanged trivial
  · obtain ⟨-, rfl⟩ := put_result_unique (putPage_neg store src file hneg) hcall
    exact h.unchanged trivial
  have hresult := @putPage_page file.image store src _ k hpos hk hloc
  rw [h.eq_reliable] at hcall
  obtain ⟨-, rfl⟩ := put_result_unique hresult hcall
  have hlen : (writePage file.image k src).length =
      max file.image.length (pageSize * (k + 1)) := length_writePage k src
  refine h.grown hlen (page_end_lt hk) ?_ fun hpage hend => ?_
  · rw [pageAt_writePage_of_ne src (by omega : 0 ≠ k), h.meta_size]
  · rw [hlen, Nat.max_eq_left (h.page_le (h.lt_size hpage hk hloc))]
    exact iff_of_true hend trivial

/-! ## Runs -/

/-- The calls of the store, given pages of the store only. -/
abbrev existingStep (store : Backing) :
    StoreFile → StoreEvent → StoreFile → Prop :=
  Guarded (storeStep store) NamesPages

/-- The offset of a page of the store is not negative. -/
theorem CountsPages.offset_not_neg (h : CountsPages file size)
    (hindex : IsPage file index) : ¬indexToOffset index < 0 := by
  obtain ⟨k, -, hk, hloc⟩ := h.page_number hindex
  rw [hloc]
  exact not_pageOffset_neg (hk.trans_le h.size_le)

theorem CountsPages.step {event : StoreEvent} (h : CountsPages file size)
    (hcall : existingStep store file event file') :
    ∃ size', LeavesPages file size event file' size' := by
  obtain ⟨hindex, hcall⟩ := hcall
  cases event with
  | alloc src status index => exact h.alloc hcall
  | free index status =>
      exact ⟨size, h.free (h.offset_not_neg hindex) hcall⟩
  | get dest index status read =>
      obtain rfl := getPage_file h.schedule hcall
      exact ⟨size, h.unchanged trivial⟩
  | put src index status => exact ⟨size, h.put hcall⟩

theorem HoldsStore.countsPages {free : List ℕ}
    (h : HoldsStore file size free) : CountsPages file size where
  schedule := h.schedule
  size_pos := h.storeAt.size_pos
  size_le := h.storeAt.size_le
  meta_size := h.storeAt.meta_size
  in_file := h.storeAt.in_file

/-- From a fresh store on, `get_page` recognises exactly the pages of the store
after every call of a run exactly when every call writes inside the store. -/
theorem pages_recognised_iff {storefd : ℤ} {events : List StoreEvent}
    (hcreate : createNewBacking storefd [] = (.ok, file)) :
    RecognisesPages store file ∧
      (Run (Ensuring (existingStep store)
          fun _ _ file' => RecognisesPages store file') file events file' ↔
        Run (Guarded (existingStep store) WritesInside) file events file') := by
  have hcounts := (holdsStore_created hcreate).countsPages
  have hlen : file.image.length = pageSize * 1 := by
    rw [eq_createdImage hcreate]
    exact length_blankStore 0
  have hbounded : Addressable file := by
    rw [Addressable, hlen]
    decide
  have hrecognises : RecognisesPages store file := by
    rw [hcounts.recognises_iff hbounded, hlen]
    decide
  refine ⟨hrecognises, Run.ensuring_iff_guarded (I := fun file =>
    (∃ size, CountsPages file size) ∧ Addressable file ∧
      RecognisesPages store file) ?_ ?_
    ⟨⟨1, hcounts⟩, hbounded, hrecognises⟩⟩
  · rintro s event t ⟨⟨size, h⟩, hbounded, hbefore⟩ hcall
    obtain ⟨size', h'⟩ := h.step hcall
    have hend := (h.recognises_iff hbounded).mp hbefore
    exact (h'.counts.recognises_iff (h'.bounded hbounded)).trans
      (h'.end_iff hcall.1 hend)
  · rintro s event t ⟨⟨size, h⟩, hbounded, hbefore⟩ hcall hafter
    obtain ⟨size', h'⟩ := h.step hcall
    exact ⟨⟨size', h'.counts⟩, h'.bounded hbounded, hafter⟩

/-- On a store whose list of free pages is intact only an allocation without
contents may write outside. -/
theorem HoldsStore.writesInside {free : List ℕ} {event : StoreEvent}
    (h : HoldsStore file size free)
    (hcontents : ∀ status index, event ≠ .alloc none status index) :
    WritesInside file event := by
  have hle := h.storeAt.size_le
  have hsize := h.storeAt.toInt_size
  have hpage : ∀ k ∈ free, InsideStore file (pageOffset k) := by
    intro k hk
    have hlt := h.storeAt.free_lt k hk
    rw [InsideStore, hsize, toInt_pageOffset (hlt.trans_le hle)]
    omega
  have hnone : InsideStore file emptyList := by
    rw [InsideStore, hsize, show emptyList.toInt = -1 by decide]
    omega
  cases event with
  | alloc src status index =>
      cases src with
      | none => exact absurd rfl (hcontents status index)
      | some src =>
          refine Or.inr (Or.inr ?_)
          simp only [contentsOffset]
          cases free with
          | nil => exact h.storeAt.freelist.head_nil ▸ hnone
          | cons k rest =>
              exact h.storeAt.freelist.head_cons ▸ hpage k List.mem_cons_self
  | free index status =>
      change InsideStore file (freelistTail (pageAt file.image 0))
      rcases List.eq_nil_or_concat free with rfl | ⟨front, t, rfl⟩
      · exact h.storeAt.freelist.tail_nil ▸ hnone
      · rw [List.concat_eq_append] at h hpage
        exact h.storeAt.freelist.tail_snoc ▸ hpage t (by simp)
  | get dest index status read => trivial
  | put src index status => trivial

/-- A page is allocated, freed, and allocated without contents.  Page 4096 can
be read afterwards, though the store has two pages. -/
theorem missing_page_recognised :
    ∃ file', Run (existingStep ⟨3⟩) (reliable createdImage)
        [.alloc (some blankPage) .ok 1, .free 1 .ok, .alloc none .ok 1] file' ∧
      ¬RecognisesPages ⟨3⟩ file' := by
  obtain ⟨image₁, halloc, hstore₁, -⟩ :=
    storeAt_createdImage.alloc_appended ⟨3⟩ (by decide) (some blankPage)
  obtain ⟨image₂, hfree, hstore₂, -⟩ :=
    hstore₁.free_page (k := 1) ⟨3⟩ (by decide) (by decide)
  have hstore₂' : StoreAt image₂ 2 [1] := hstore₂
  have hpage : IsPage (reliable image₁) 1 := by
    rw [IsPage, hstore₁.meta_size]
    decide
  have hzeros := @allocPage_recycled_blank image₂ ⟨3⟩ 1 4096
    hstore₂'.inFile_zero (by decide) (hstore₂'.inFile (by decide))
    hstore₂'.freelist.head_cons (by decide) (by decide)
  refine ⟨_, .cons ⟨trivial, halloc⟩ (.cons ⟨hpage, hfree⟩
    (.cons ⟨trivial, hzeros⟩ (.nil _))), ?_⟩
  intro hrecognises
  have hread := hrecognises blankPage (Int64.ofNat 4096) (by decide) (by decide)
  rw [getPage_ok_iff blankPage (by decide) (by decide)
    (indexToOffset_ofNat 4096), pageAt_writePage_self, metaSize_popHead,
    hstore₂'.meta_size] at hread
  have hin := hread.mp (inFile_writePage_self 4096 blankPage).writePage
  exact absurd hin.2 (by decide)

/-- On a fresh store a page is allocated, overwritten and freed. -/
theorem pages_recognised :
    ∃ file', Run (Ensuring (existingStep ⟨3⟩)
        fun _ _ file' => RecognisesPages ⟨3⟩ file') (reliable createdImage)
      [.alloc (some blankPage) .ok 1, .put blankPage 1 .ok, .free 1 .ok]
      file' := by
  have hcreate := createNewBacking_reliable (show (3 : ℤ) ≠ -1 by decide)
  have hstore : HoldsStore (reliable createdImage) 1 [] :=
    ⟨rfl, storeAt_createdImage⟩
  obtain ⟨image₁, halloc, hstore₁, -⟩ :=
    storeAt_createdImage.alloc_appended ⟨3⟩ (by decide) (some blankPage)
  have hpage : ∀ {image free}, StoreAt image 2 free →
      IsPage (reliable image) 1 := by
    intro image free h
    rw [IsPage, h.meta_size]
    decide
  obtain ⟨hput, hstore₂⟩ :=
    hstore₁.put_page (k := 1) ⟨3⟩ (by decide) (by decide) (by simp) blankPage
  obtain ⟨image₃, hfree, -⟩ :=
    hstore₂.free_page (k := 1) ⟨3⟩ (by decide) (by decide)
  refine ⟨_, (pages_recognised_iff hcreate).2.mpr
    (.cons ⟨?_, trivial, halloc⟩ (.cons ⟨trivial, hpage hstore₁, hput⟩
      (.cons ⟨?_, hpage hstore₂, hfree⟩ (.nil _))))⟩
  · apply hstore.writesInside
    intro status index hevent
    cases hevent
  · apply HoldsStore.writesInside ⟨rfl, hstore₂⟩
    intro status index hevent
    cases hevent

end NickDB

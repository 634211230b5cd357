import NickDB.Store.Freelist

/-!
# Well-formed stores

`StoreAt image size free` is the invariant of the page store: the metadata page
counts `size` pages, all of them lie in the file, and the pages `free` are the
list of free pages, ended by `-1`.  The four calls preserve it; each lemma says
what the call returns, which pages it leaves alone and how the list changes.
-/

namespace NickDB

/-- A store of `size` pages of which `free` are free. -/
structure StoreAt (image : ByteFile UInt8) (size : ℕ) (free : List ℕ) :
    Prop where
  size_pos : 1 ≤ size
  size_le : size ≤ pageLimit
  meta_size : metaSize (pageAt image 0) = Int64.ofNat size
  in_file : pageSize * size ≤ image.length
  freelist : FreelistAt image free emptyList
  free_lt : ∀ k ∈ free, k < size

variable {image image' : ByteFile UInt8} {size : ℕ} {free : List ℕ}
  (store : Backing)

theorem StoreAt.inFile (h : StoreAt image size free) {k : ℕ}
    (hk : k < size) : InFile image k := by
  have hle : pageSize * (k + 1) ≤ pageSize * size :=
    Nat.mul_le_mul_left pageSize hk
  exact hle.trans h.in_file

theorem StoreAt.inFile_zero (h : StoreAt image size free) : InFile image 0 :=
  h.inFile h.size_pos

theorem StoreAt.lt_pageLimit (h : StoreAt image size free) {k : ℕ}
    (hk : k < size) : k < pageLimit :=
  hk.trans_le h.size_le

theorem StoreAt.toInt_size (h : StoreAt image size free) :
    (metaSize (pageAt image 0)).toInt = size := by
  rw [h.meta_size, toInt_pageCount h.size_le]

/-- The number of pages is read off the image. -/
theorem StoreAt.size_unique {size' : ℕ} {free' : List ℕ}
    (h : StoreAt image size free) (h' : StoreAt image size' free') :
    size = size' :=
  pageCount_inj h.size_le h'.size_le (h.meta_size.symm.trans h'.meta_size)

/-- The link word of a free page is not that of a page of zeros. -/
theorem StoreAt.linkWord_ne_zero {j : ℕ} (h : StoreAt image size free)
    (hj : j ∈ free) : linkWord (pageAt image j) ≠ 0 := by
  intro hlink
  have hlimit := h.freelist.limit j hj
  obtain ⟨nodes, hnodes⟩ := (h.freelist.mem_iff_reaches hlimit).mp hj
  have hnext : nextFree image (pageOffset j) = some (pageOffset 0) := by
    rw [nextFree_pageOffset hlimit, hlink, ← pageOffset_zero]
    exact linkTarget_pageOffset (by decide)
  have hzero : 0 ∈ free :=
    (h.freelist.mem_iff_reaches (by decide)).mpr
      ⟨_, Linked.path_append_singleton.mpr ⟨hnodes, hnext⟩⟩
  exact h.freelist.ne_zero hzero rfl

/-- A free page is not blank. -/
theorem StoreAt.ne_blankPage {j : ℕ} (h : StoreAt image size free)
    (hj : j ∈ free) : pageAt image j ≠ blankPage := by
  intro hblank
  have hlink := h.linkWord_ne_zero hj
  rw [hblank, linkWord_blankPage] at hlink
  exact hlink rfl

/-- The image `create_new_backing` writes is a store of the metadata page. -/
theorem storeAt_createdImage : StoreAt createdImage 1 [] where
  size_pos := Nat.le_refl 1
  size_le := by decide
  meta_size := by
    rw [createdImage, pageAt_writePage_self, freshMetadata]
    simp only [metaSize_setTail, metaSize_setHead, metaSize_setSize]
    rfl
  in_file := by
    rw [createdImage, length_writePage]
    exact Nat.le_max_right _ _
  freelist :=
    { inFile := by simp
      nodup := List.nodup_nil
      path := by
        rw [createdImage, pageAt_writePage_self, freshMetadata]
        simp
      tail := by
        rw [createdImage, pageAt_writePage_self, freshMetadata]
        simp }
  free_lt := by simp

/-! ## `alloc_page` -/

/-- The first free page is allocated. -/
theorem StoreAt.alloc_recycled {k : ℕ} (h : StoreAt image size (k :: free))
    (src : Page) :
    ∃ image', allocPage (some src) (some store) (reliable image) =
        (.ok, Int64.ofNat k, reliable image') ∧
      StoreAt image' size free ∧ pageAt image' k = src ∧
      ∀ j, j ≠ 0 → j ≠ k → pageAt image' j = pageAt image j := by
  have hk : k < size := h.free_lt k List.mem_cons_self
  have hklimit : k < pageLimit := h.lt_pageLimit hk
  have hk0 : k ≠ 0 := h.freelist.ne_zero List.mem_cons_self
  have hfresh : k ∉ free := (List.nodup_cons.mp h.freelist.nodup).1
  refine ⟨_, allocPage_recycled store h.inFile_zero hklimit (h.inFile hk)
    h.freelist.head_cons, ?_, ?_, ?_⟩
  · exact
      { size_pos := h.size_pos
        size_le := h.size_le
        meta_size := by
          rw [pageAt_writePage_self, metaSize_popHead, h.meta_size]
        in_file := h.in_file.trans (length_le_two_writes k src _)
        freelist := h.freelist.recycled src hfresh
        free_lt := fun j hj => h.free_lt j (List.mem_cons_of_mem k hj) }
  · rw [pageAt_writePage_of_ne _ hk0, pageAt_writePage_self]
  · intro j hj hjk
    exact pageAt_two_writes src _ hj hjk

/-- The file grows by one page. -/
theorem StoreAt.alloc_appended (h : StoreAt image size [])
    (hsize : size < pageLimit) (src : Option Page) :
    ∃ image', allocPage src (some store) (reliable image) =
        (.ok, Int64.ofNat size, reliable image') ∧
      StoreAt image' (size + 1) [] ∧
      pageAt image' size = src.getD blankPage ∧
      (∀ j, j ≠ 0 → j ≠ size → pageAt image' j = pageAt image j) ∧
      image'.length = max image.length (pageSize * (size + 1)) := by
  have hsize0 : size ≠ 0 := Nat.one_le_iff_ne_zero.mp h.size_pos
  have hlen : ∀ page metadata, (writePage (writePage image size page) 0
      metadata).length = max image.length (pageSize * (size + 1)) := by
    intro page metadata
    rw [length_writePage, length_writePage]
    simp only [pageSize]
    omega
  refine ⟨_, allocPage_appended store h.inFile_zero hsize h.freelist.head_nil
    h.meta_size, ?_, ?_, ?_, hlen _ _⟩
  · exact
      { size_pos := by omega
        size_le := hsize
        meta_size := by rw [pageAt_writePage_self, metaSize_setSize]
        in_file := by
          rw [hlen]
          exact Nat.le_max_right _ _
        freelist := h.freelist.extended size _ _
        free_lt := by simp }
  · rw [pageAt_writePage_of_ne _ hsize0, pageAt_writePage_self]
  · intro j hj hjk
    exact pageAt_two_writes _ _ hj hjk

/-- A store that has reached the largest offset refuses to grow. -/
theorem StoreAt.alloc_limit (h : StoreAt image pageLimit [])
    (src : Option Page) :
    allocPage src (some store) (reliable image) =
      (.badWrite, errSet, reliable image) :=
  allocPage_appended_limit store h.inFile_zero h.freelist.head_nil h.meta_size

/-! ## `free_page`, `get_page` and `put_page` -/

/-- A page is put behind the last free page, wherever it stood before, whether
or not it exists; only free pages and the page itself are written. -/
theorem StoreAt.free_any (h : StoreAt image size free) {k : ℕ} (hpos : 1 ≤ k)
    (hk : k < pageLimit) :
    ∃ image', freePage (some store) (reliable image) (Int64.ofNat k) =
        (.ok, reliable image') ∧
      FreelistAt image' (requeue k free) emptyList ∧
      metaSize (pageAt image' 0) = Int64.ofNat size ∧
      image'.length = max image.length (pageSize * (k + 1)) ∧
      ∀ j, j ≠ 0 → j ∉ free → j ≠ k →
        pageAt image' j = pageAt image j := by
  have hzero : pageSize * (0 + 1) ≤ image.length := h.inFile_zero
  rcases List.eq_nil_or_concat free with rfl | ⟨front, t, rfl⟩
  · have hempty : freelistTail (pageAt image 0) = -1 ∧
        freelistHead (pageAt image 0) = -1 :=
      ⟨h.freelist.tail_nil, h.freelist.head_nil⟩
    refine ⟨_, freePage_first store h.inFile_zero hpos hk
      (indexToOffset_ofNat k) hempty, FreelistAt.freed_first hpos hk, ?_, ?_,
      ?_⟩
    · rw [pageAt_writePage_self, metaSize_setTail, metaSize_setHead,
        h.meta_size]
    · rw [length_writePage, length_writePage]
      omega
    · intro j hj _ hjk
      exact pageAt_two_writes _ _ hj hjk
  · rw [List.concat_eq_append] at h ⊢
    have ht : t < pageLimit := h.freelist.limit t (by simp)
    have htin : pageSize * (t + 1) ≤ image.length :=
      (h.freelist.inFile t (by simp)).2.2
    refine ⟨_, freePage_appended store h.inFile_zero hpos hk
      (indexToOffset_ofNat k) ht h.freelist.tail_snoc,
      h.freelist.freed_appended hpos hk, ?_, ?_, ?_⟩
    · have ht0 : t ≠ 0 := h.freelist.ne_zero (by simp)
      rw [pageAt_writePage_self, metaSize_setTail, h.meta_size]
    · rw [length_writePage, length_writePage, length_writePage]
      omega
    · intro j hj hfree hjk
      have hjt : j ≠ t := by
        rintro rfl
        exact hfree (by simp)
      rw [pageAt_two_writes _ _ hj hjk, pageAt_writePage_of_ne _ hjt]

/-- A page of the store is put behind the last free page. -/
theorem StoreAt.free_page (h : StoreAt image size free) {k : ℕ} (hpos : 1 ≤ k)
    (hk : k < size) :
    ∃ image', freePage (some store) (reliable image) (Int64.ofNat k) =
        (.ok, reliable image') ∧
      StoreAt image' size (requeue k free) ∧
      ∀ j, j ≠ 0 → j ∉ free → j ≠ k →
        pageAt image' j = pageAt image j := by
  obtain ⟨image', hresult, hfreelist, hsize, hlen, hsame⟩ :=
    h.free_any store hpos (h.lt_pageLimit hk)
  refine ⟨image', hresult, ?_, hsame⟩
  exact
    { size_pos := h.size_pos
      size_le := h.size_le
      meta_size := hsize
      in_file := by
        rw [hlen]
        exact h.in_file.trans (Nat.le_max_left _ _)
      freelist := hfreelist
      free_lt := by
        intro j hj
        rcases mem_of_mem_requeue hj with hfree | rfl
        · exact h.free_lt j hfree
        · exact hk }

/-- A page is appended, freed and taken off the list again. -/
theorem StoreAt.alloc_freed (h : StoreAt image size [])
    (hsize : size < pageLimit) (first second : Page) :
    ∃ image₁ image₂ image₃,
      allocPage (some first) (some store) (reliable image) =
        (.ok, Int64.ofNat size, reliable image₁) ∧
      freePage (some store) (reliable image₁) (Int64.ofNat size) =
        (.ok, reliable image₂) ∧
      allocPage (some second) (some store) (reliable image₂) =
        (.ok, Int64.ofNat size, reliable image₃) ∧
      StoreAt image₂ (size + 1) [size] ∧ StoreAt image₃ (size + 1) [] ∧
      pageAt image₃ size = second := by
  obtain ⟨image₁, halloc, hstore₁, -⟩ :=
    h.alloc_appended store hsize (some first)
  obtain ⟨image₂, hfree, hstore₂, -⟩ :=
    hstore₁.free_page store h.size_pos (Nat.lt_succ_self size)
  have hlist : StoreAt image₂ (size + 1) [size] := hstore₂
  obtain ⟨image₃, hreuse, hstore₃, hpage, -⟩ :=
    hlist.alloc_recycled store second
  exact ⟨image₁, image₂, image₃, halloc, hfree, hreuse, hlist, hstore₃, hpage⟩

theorem StoreAt.get_page (h : StoreAt image size free) {k : ℕ} (hpos : 1 ≤ k)
    (hk : k < size) (dest : Page) :
    getPage dest (some store) (reliable image) (Int64.ofNat k) =
      (.ok, pageAt image k, reliable image) :=
  getPage_page store dest hpos (h.lt_pageLimit hk) (indexToOffset_ofNat k)
    (h.inFile hk)

/-- A page that is not free may be overwritten. -/
theorem StoreAt.put_page (h : StoreAt image size free) {k : ℕ} (hpos : 1 ≤ k)
    (hk : k < size) (hfree : k ∉ free) (src : Page) :
    putPage src (some store) (reliable image) (Int64.ofNat k) =
        (.ok, reliable (writePage image k src)) ∧
      StoreAt (writePage image k src) size free := by
  have hk0 : k ≠ 0 := Nat.one_le_iff_ne_zero.mp hpos
  refine ⟨putPage_page store src hpos (h.lt_pageLimit hk)
    (indexToOffset_ofNat k), ?_⟩
  exact
    { size_pos := h.size_pos
      size_le := h.size_le
      meta_size := by rw [pageAt_writePage_of_ne src hk0.symm, h.meta_size]
      in_file := h.in_file.trans (image.length_le_length_write _ src)
      freelist := h.freelist.put hk0 fun hmem => absurd hmem hfree
      free_lt := h.free_lt }

/-! ## A store of blank pages -/

/-- The image after `n` pages of zeros were appended to a fresh store. -/
def blankStore : ℕ → ByteFile UInt8
  | 0 => createdImage
  | n + 1 => writePage (writePage (blankStore n) (n + 1) blankPage) 0
      (setSize (pageAt (blankStore n) 0) (Int64.ofNat (n + 2)))

theorem length_blankStore (n : ℕ) :
    (blankStore n).length = pageSize * (n + 1) := by
  induction n with
  | zero =>
      rw [blankStore, createdImage, length_writePage]
      exact Nat.max_eq_right (Nat.zero_le _)
  | succ n ih =>
      rw [blankStore, length_writePage, length_writePage, ih]
      simp only [pageSize]
      omega

theorem storeAt_blankStore {n : ℕ} (hn : n < pageLimit) :
    StoreAt (blankStore n) (n + 1) [] := by
  induction n with
  | zero => exact storeAt_createdImage
  | succ n ih =>
      have h := ih (by omega)
      exact
        { size_pos := by omega
          size_le := hn
          meta_size := by
            rw [blankStore, pageAt_writePage_self, metaSize_setSize]
          in_file := (length_blankStore (n + 1)).ge
          freelist := h.freelist.extended (n + 1) _ _
          free_lt := by simp }

theorem pageAt_blankStore {n k : ℕ} (hpos : 1 ≤ k) (hk : k ≤ n) :
    pageAt (blankStore n) k = blankPage := by
  have hk0 : k ≠ 0 := Nat.one_le_iff_ne_zero.mp hpos
  induction n with
  | zero => omega
  | succ n ih =>
      rw [blankStore, pageAt_writePage_of_ne _ hk0]
      by_cases heq : k = n + 1
      · rw [heq, pageAt_writePage_self]
      · rw [pageAt_writePage_of_ne _ heq]
        exact ih (by omega)

end NickDB

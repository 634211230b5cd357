import NickDB.Store.BlankAllocation
import NickDB.Store.Failures

/-!
# Failures of `alloc_page`

Appending a page writes the metadata last, so a failure on the way changes
nothing that is in the store.  Taking a page off the list of free pages
overwrites a page while the metadata still leads to the list: when the write of
the metadata fails then, the link word in the first free page is gone, or, if
no contents are given, whatever the misplaced page of zeros went to.  This
module states exactly for which failures nothing has changed.
-/

namespace NickDB

open Linked

/-- The metadata, the list of free pages and the pages in use are as before, and
no page has been cut off. -/
structure AllocUndone (image image' : ByteFile UInt8) (size : ℕ)
    (free : List ℕ) : Prop where
  length_le : image.length ≤ image'.length
  metadata : pageAt image' 0 = pageAt image 0
  chain : ChainKept image image'
  contents : ∀ k, 1 ≤ k → k < size → k ∉ free →
    pageAt image' k = pageAt image k

/-- What the first free page is overwritten with, or what the zeros of an
allocation without contents hit, can be missed. -/
def OverwritesNothing (image : ByteFile UInt8) : Option Page → Prop
  | some src => nextFree image (freelistHead (pageAt image 0)) =
      linkTarget (linkWord src)
  | none =>
      let blank := indexToOffset (freelistHead (pageAt image 0))
      blank < 0 ∨ 4096 * (metaSize (pageAt image 0)).toInt ≤ blank.toInt ∨
        image.read (position blank) pageSize = blankPage

/-- No page is free, or the call fails before a page is written, or it does not
fail at all, or it has overwritten nothing. -/
def AllocFailsUnwritten (image : ByteFile UInt8) (schedule : List Transfer)
    (src : Option Page) : Prop :=
  freelistHead (pageAt image 0) = emptyList ∨ Fails schedule 0 ∨
    Fails schedule 1 ∨ Fails schedule 2 ∨ ¬Fails schedule 3 ∨
    OverwritesNothing image src

variable {image image' : ByteFile UInt8} {schedule : List Transfer}
  {size : ℕ} {free : List ℕ} {store : Backing} {src : Option Page}

theorem AllocUndone.refl (image : ByteFile UInt8) (size : ℕ)
    (free : List ℕ) : AllocUndone image image size free :=
  ⟨Nat.le_refl _, rfl, fun _ => Iff.rfl, fun _ _ _ _ => rfl⟩

/-! ## The failures of a call -/

/-- The metadata page cannot be read. -/
theorem allocPage_unread (h : StoreAt image size free)
    (hall : AllOrNothing schedule) (hfails : Fails schedule 0) :
    allocPage src (some store) ⟨image, schedule⟩ =
      (.badRead, errSet, ⟨image, schedule.tail⟩) := by
  simp only [allocPage, indexToOffset_zero,
    hall.pread_page _ (by decide) h.inFile_zero, if_pos hfails]
  simp [pageSize]

theorem allocPage_read_empty (h : StoreAt image size [])
    (hall : AllOrNothing schedule) (hfails : ¬Fails schedule 0) :
    allocPage src (some store) ⟨image, schedule⟩ =
      allocAppended src (pageAt image 0) ⟨image, schedule.tail⟩ := by
  have hhead := h.freelist.head_nil
  simp only [allocPage, indexToOffset_zero,
    hall.pread_page _ (by decide) h.inFile_zero, if_neg hfails]
  simp [hhead]

theorem allocPage_read_cons {k : ℕ} (h : StoreAt image size (k :: free))
    (hall : AllOrNothing schedule) (hfails : ¬Fails schedule 0) :
    allocPage src (some store) ⟨image, schedule⟩ =
      allocRecycled src (pageAt image 0) ⟨image, schedule.tail⟩ := by
  have hk := h.freelist.limit k List.mem_cons_self
  have hhead : freelistHead (pageAt image 0) ≠ emptyList :=
    h.freelist.head_cons ▸ pageOffset_ne_emptyList hk
  simp only [allocPage, indexToOffset_zero,
    hall.pread_page _ (by decide) h.inFile_zero, if_neg hfails]
  simp [hhead]

/-- The page number `j` is overwritten when the first free page `k` is taken:
the page itself if there are contents for it, and the page the zeros are
misplaced to otherwise. -/
def Overwrites (src : Option Page) (k j : ℕ) : Prop :=
  match src with
  | some _ => j = k
  | none => indexToOffset (pageOffset k) = pageOffset j

/-- A page is written, and then the metadata. -/
theorem writes_eq {metadata page : Page} {j : ℕ} {index : PageIndex}
    (hall : AllOrNothing schedule) (hj : j < pageLimit) :
    (let (write, file) := pwrite ⟨image, schedule⟩ page (pageOffset j)
      if write ≠ pageSize then (Status.badWrite, errSet, file)
      else
        let (metaWrite, file) := pwrite file metadata (pageOffset 0)
        if metaWrite ≠ pageSize then (.badWrite, errSet, file)
        else (.ok, index, file)) =
      if Fails schedule 0 then (.badWrite, errSet, ⟨image, schedule.tail⟩)
      else if Fails schedule 1 then
        (.badWrite, errSet, ⟨writePage image j page, schedule.tail.tail⟩)
      else (.ok, index, ⟨writePage (writePage image j page) 0 metadata,
        schedule.tail.tail⟩) := by
  simp only [hall.pwrite_page _ hj]
  by_cases hpage : Fails schedule 0
  · simp [if_pos hpage, pageSize]
  · simp only [if_neg hpage, fails_tail,
      hall.tail.pwrite_page _ (by decide : 0 < pageLimit)]
    by_cases hmeta : Fails schedule 1
    · simp [if_pos hmeta, pageSize]
    · simp [if_neg hmeta]

/-- The transfers that take a page off the list. -/
theorem allocRecycled_eq {metadata : Page} {k j : ℕ}
    (hall : AllOrNothing schedule) (hk : k < pageLimit)
    (hin : InFile image k) (hhead : freelistHead metadata = pageOffset k)
    (hj : j < pageLimit) (hover : Overwrites src k j) :
    allocRecycled src metadata ⟨image, schedule⟩ =
      if Fails schedule 0 then (.badRead, errSet, ⟨image, schedule.tail⟩)
      else if Fails schedule 1 then
        (.badWrite, errSet, ⟨image, schedule.tail.tail⟩)
      else if Fails schedule 2 then
        (.badWrite, errSet, ⟨writePage image j (src.getD blankPage),
          schedule.tail.tail.tail⟩)
      else (.ok, Int64.ofNat k,
        ⟨writePage (writePage image j (src.getD blankPage)) 0
          (popHead metadata (linkWord (pageAt image k))),
            schedule.tail.tail.tail⟩) := by
  have hwrites := @writes_eq image schedule.tail
    (popHead metadata (linkWord (pageAt image k))) (src.getD blankPage) j
    (Int64.ofNat k) hall.tail hj
  simp only [fails_tail] at hwrites
  simp only [allocRecycled, hhead, hall.pread_link _ hk hin,
    indexToOffset_zero, offsetToIndex_pageOffset hk]
  by_cases hread : Fails schedule 0
  · simp [if_pos hread]
  rw [if_neg hread, if_neg hread, ← hwrites]
  cases src with
  | some src =>
      obtain rfl : j = k := hover
      rfl
  | none =>
      have hblank : indexToOffset (pageOffset k) = pageOffset j := hover
      simp only [hblank]
      rfl

theorem allocRecycled_blank_neg {metadata : Page} {k : ℕ}
    (hall : AllOrNothing schedule) (hk : k < pageLimit)
    (hin : InFile image k) (hhead : freelistHead metadata = pageOffset k)
    (hblank : indexToOffset (pageOffset k) < 0) :
    allocRecycled none metadata ⟨image, schedule⟩ =
      (if Fails schedule 0 then .badRead else .badWrite, errSet,
        ⟨image, schedule.tail⟩) := by
  simp only [allocRecycled, hhead, hall.pread_link _ hk hin,
    pwrite_neg _ blankPage hblank]
  by_cases hread : Fails schedule 0
  · simp [if_pos hread]
  · simp only [if_neg hread]
    simp [pageSize]

/-- The zeros of a new page are written, but the page is not counted. -/
theorem allocPage_uncounted (h : StoreAt image size [])
    (hall : AllOrNothing schedule) (hsize : size < pageLimit)
    (hread : ¬Fails schedule 0) (hzeros : ¬Fails schedule 1)
    (hcount : Fails schedule 2) :
    allocPage none (some store) ⟨image, schedule⟩ =
      (.badWrite, errSet,
        ⟨writePage image size blankPage, schedule.tail.tail.tail⟩) := by
  have hwrites := @writes_eq image schedule.tail
    (setSize (pageAt image 0) (metaSize (pageAt image 0) + 1)) blankPage size
    (Int64.ofNat size) hall.tail hsize
  rw [if_neg (mt fails_tail.mp hzeros), if_pos (fails_tail.mpr hcount)]
    at hwrites
  rw [allocPage_read_empty h hall hread, ← hwrites]
  simp only [allocAppended, h.meta_size, indexToOffset_ofNat,
    indexToOffset_zero, pageOffset_zero, ne_eq, not_true_eq_false, if_false]

/-- An append that fails leaves at most the new page behind. -/
theorem allocAppended_failed {metadata : Page} {n : ℕ} {status : Status}
    {index : PageIndex} {file' : StoreFile} (hall : AllOrNothing schedule)
    (hn : n < pageLimit) (hsize : metaSize metadata = Int64.ofNat n)
    (hcall : allocAppended src metadata ⟨image, schedule⟩ =
      (status, index, file')) (hstatus : status ≠ .ok) :
    file'.image = image ∨ ∃ page, file'.image = writePage image n page := by
  have hzero : (0 : ℕ) < pageLimit := by decide
  simp only [allocAppended, hsize, indexToOffset_ofNat, indexToOffset_zero,
    hall.pwrite_page _ hn] at hcall
  by_cases hblank : Fails schedule 0
  · simp only [if_pos hblank, pageSize] at hcall
    cases hcall
    exact Or.inl rfl
  right
  simp only [if_neg hblank, ne_eq, not_true_eq_false, if_false] at hcall
  cases src with
  | none =>
      simp only [not_true_eq_false, if_false,
        hall.tail.pwrite_page _ hzero] at hcall
      by_cases hmeta : Fails schedule.tail 0
      · simp only [if_pos hmeta, pageSize] at hcall
        cases hcall
        exact ⟨blankPage, rfl⟩
      · simp only [if_neg hmeta, not_true_eq_false, if_false] at hcall
        cases hcall
        exact absurd rfl hstatus
  | some src =>
      simp only [hall.tail.pwrite_page _ hn] at hcall
      by_cases hdata : Fails schedule.tail 0
      · simp only [if_pos hdata, pageSize] at hcall
        cases hcall
        exact ⟨blankPage, rfl⟩
      simp only [if_neg hdata, not_true_eq_false, if_false,
        writePage_writePage_self, hall.tail.tail.pwrite_page _ hzero] at hcall
      by_cases hmeta : Fails schedule.tail.tail 0
      · simp only [if_pos hmeta, pageSize] at hcall
        cases hcall
        exact ⟨src, rfl⟩
      · simp only [if_neg hmeta, not_true_eq_false, if_false] at hcall
        cases hcall
        exact absurd rfl hstatus

/-! ## Writes that change nothing -/

/-- A page that is written goes unnoticed if it is not in the store, if it is
free and keeps its link word, or if it holds these bytes already. -/
theorem StoreAt.allocUndone_iff {j : ℕ} {page : Page}
    (h : StoreAt image size free) :
    AllocUndone image (writePage image j page) size free ↔
      (j < size → if j ∈ free then linkWord page = linkWord (pageAt image j)
        else page = pageAt image j) := by
  constructor
  · intro hundone hj
    split
    next hfree =>
      have hlink := (h.chainKept_iff hundone.metadata).mp hundone.chain j hfree
      rwa [pageAt_writePage_self] at hlink
    next hfree =>
      rcases Nat.eq_zero_or_pos j with rfl | hpos
      · have hmeta := hundone.metadata
        rwa [pageAt_writePage_self] at hmeta
      · have hpage := hundone.contents j hpos hj hfree
        rwa [pageAt_writePage_self] at hpage
  · intro hwrite
    have hmeta : pageAt (writePage image j page) 0 = pageAt image 0 := by
      by_cases hj : 0 = j
      · subst hj
        have hzero : 0 ∉ free := fun hmem => h.freelist.ne_zero hmem rfl
        have hsame := hwrite h.size_pos
        rw [if_neg hzero] at hsame
        rw [pageAt_writePage_self, hsame]
      · rw [pageAt_writePage_of_ne _ hj]
    refine ⟨image.length_le_length_write _ _, hmeta,
      (h.chainKept_iff hmeta).mpr fun k hk => ?_, fun k _ hksize hk => ?_⟩
    · by_cases hj : k = j
      · subst hj
        have hsame := hwrite (h.free_lt k hk)
        rw [if_pos hk] at hsame
        rw [pageAt_writePage_self, hsame]
      · rw [pageAt_writePage_of_ne _ hj]
    · by_cases hj : k = j
      · subst hj
        have hsame := hwrite hksize
        rw [if_neg hk] at hsame
        rw [pageAt_writePage_self, hsame]
      · rw [pageAt_writePage_of_ne _ hj]

/-- The overwritten page goes unnoticed. -/
theorem StoreAt.overwritesNothing_iff {k j : ℕ}
    (h : StoreAt image size (k :: free)) (hj : j < pageLimit)
    (hover : Overwrites src k j) :
    AllocUndone image (writePage image j (src.getD blankPage)) size
        (k :: free) ↔ OverwritesNothing image src := by
  have hk := h.freelist.limit k List.mem_cons_self
  have hhead := h.freelist.head_cons
  rw [h.allocUndone_iff]
  cases src with
  | some src =>
      obtain rfl : j = k := hover
      have hlink : OverwritesNothing image (some src) ↔
          linkWord src = linkWord (pageAt image j) := by
        rw [OverwritesNothing, hhead, nextFree_pageOffset hk, linkTarget_inj]
        exact eq_comm
      rw [hlink]
      simp [h.free_lt j List.mem_cons_self]
  | none =>
      have hblank : indexToOffset (pageOffset k) = pageOffset j := hover
      have hnothing : OverwritesNothing image none ↔
          size ≤ j ∨ pageAt image j = blankPage := by
        have hread : image.read (position (pageOffset j)) pageSize =
            pageAt image j := by
          rw [position_pageOffset hj]
          rfl
        have hpast : 4096 * (metaSize (pageAt image 0)).toInt ≤
            (pageOffset j).toInt ↔ size ≤ j := by
          rw [toInt_pageOffset hj, h.toInt_size]
          omega
        simp only [OverwritesNothing, hhead, hblank, hread, hpast,
          not_pageOffset_neg hj, false_or]
      rw [hnothing, Option.getD_none]
      by_cases hin : j < size
      · by_cases hfree : j ∈ k :: free
        · have hlink := h.linkWord_ne_zero hfree
          have hpage := h.ne_blankPage hfree
          rw [if_pos hfree, linkWord_blankPage]
          refine iff_of_false (fun hall => hlink (hall hin).symm) ?_
          exact not_or.mpr ⟨by omega, hpage⟩
        · rw [if_neg hfree]
          constructor
          · intro hall
            exact Or.inr (hall hin).symm
          · rintro (hge | hpage) -
            · omega
            · exact hpage.symm
      · exact iff_of_true (fun hlt => absurd hlt hin) (Or.inl (by omega))

/-! ## Failing calls -/

/-- A failing append changes nothing in the store. -/
theorem allocPage_atomic_of_empty {status : Status} {index : PageIndex}
    {file' : StoreFile} (h : StoreAt image size [])
    (hall : AllOrNothing schedule) (hread : ¬Fails schedule 0)
    (hcall : allocPage src (some store) ⟨image, schedule⟩ =
      (status, index, file')) (hstatus : status ≠ .ok) :
    AllocUndone image file'.image size [] := by
  rw [allocPage_read_empty h hall hread] at hcall
  rcases Nat.lt_or_eq_of_le h.size_le with hlimit | rfl
  · rcases allocAppended_failed hall.tail hlimit h.meta_size hcall hstatus with
        hsame | ⟨page, hpage⟩
    · rw [hsame]
      exact AllocUndone.refl image size []
    · rw [hpage, h.allocUndone_iff]
      exact fun hlt => absurd hlt (Nat.lt_irrefl size)
  · simp only [allocAppended, h.meta_size, indexToOffset_ofNat,
      pwrite_neg _ blankPage pageOffset_limit_neg] at hcall
    simp only [pageSize, ne_eq] at hcall
    cases hcall
    exact AllocUndone.refl image pageLimit []

theorem allocPage_atomic_of_cons {status : Status} {index : PageIndex}
    {file' : StoreFile} {k : ℕ} (h : StoreAt image size (k :: free))
    (hall : AllOrNothing schedule) (hread : ¬Fails schedule 0)
    (hcall : allocPage src (some store) ⟨image, schedule⟩ =
      (status, index, file')) :
    (status ≠ .ok → AllocUndone image file'.image size (k :: free)) ↔
      (Fails schedule 1 ∨ Fails schedule 2 ∨ ¬Fails schedule 3 ∨
        OverwritesNothing image src) := by
  have hk := h.freelist.limit k List.mem_cons_self
  have hkin := h.inFile (h.free_lt k List.mem_cons_self)
  have hhead := h.freelist.head_cons
  rw [allocPage_read_cons h hall hread] at hcall
  by_cases hneg : src = none ∧ indexToOffset (pageOffset k) < 0
  · obtain ⟨rfl, hneg⟩ := hneg
    rw [allocRecycled_blank_neg hall.tail hk hkin hhead hneg] at hcall
    cases hcall
    have hnothing : OverwritesNothing image none := by
      rw [OverwritesNothing, hhead]
      exact Or.inl hneg
    exact iff_of_true (fun _ => AllocUndone.refl image size _)
      (Or.inr (Or.inr (Or.inr hnothing)))
  obtain ⟨j, hj, hover⟩ : ∃ j, j < pageLimit ∧ Overwrites src k j := by
    cases src with
    | some src => exact ⟨k, hk, rfl⟩
    | none => exact exists_page_of_not_neg fun h => hneg ⟨rfl, h⟩
  rw [allocRecycled_eq hall.tail hk hkin hhead hj hover] at hcall
  simp only [fails_tail] at hcall
  by_cases hlink : Fails schedule 1
  · rw [if_pos hlink] at hcall
    cases hcall
    exact iff_of_true (fun _ => AllocUndone.refl image size _) (Or.inl hlink)
  by_cases hdata : Fails schedule 2
  · rw [if_neg hlink, if_pos hdata] at hcall
    cases hcall
    exact iff_of_true (fun _ => AllocUndone.refl image size _)
      (Or.inr (Or.inl hdata))
  by_cases hmeta : Fails schedule 3
  · rw [if_neg hlink, if_neg hdata, if_pos hmeta] at hcall
    cases hcall
    rw [h.overwritesNothing_iff hj hover]
    simp [hlink, hdata, hmeta]
  · rw [if_neg hlink, if_neg hdata, if_neg hmeta] at hcall
    cases hcall
    exact iff_of_true (fun hne => absurd rfl hne)
      (Or.inr (Or.inr (Or.inl hmeta)))

/-- A failing `alloc_page` changes nothing exactly when it has not overwritten
anything before it fails; and where it changes nothing, the store is
well-formed with the same free pages. -/
theorem allocPage_atomic_iff {status : Status} {index : PageIndex}
    {file' : StoreFile} (h : StoreAt image size free)
    (hall : AllOrNothing schedule)
    (hcall : allocPage src (some store) ⟨image, schedule⟩ =
      (status, index, file')) :
    ((status ≠ .ok → AllocUndone image file'.image size free) ↔
      AllocFailsUnwritten image schedule src) ∧
    (AllocUndone image file'.image size free →
      StoreAt file'.image size free) := by
  refine ⟨?_, fun hundone =>
    h.of_chainKept hundone.length_le hundone.metadata hundone.chain⟩
  unfold AllocFailsUnwritten
  by_cases hread : Fails schedule 0
  · rw [allocPage_unread h hall hread] at hcall
    cases hcall
    exact iff_of_true (fun _ => AllocUndone.refl image size free)
      (Or.inr (Or.inl hread))
  cases free with
  | nil =>
      exact iff_of_true (allocPage_atomic_of_empty h hall hread hcall)
        (Or.inl h.freelist.head_nil)
  | cons k rest =>
      have hk := h.freelist.limit k List.mem_cons_self
      have hhead : freelistHead (pageAt image 0) ≠ emptyList :=
        h.freelist.head_cons ▸ pageOffset_ne_emptyList hk
      rw [or_iff_right hhead, or_iff_right hread]
      exact allocPage_atomic_of_cons h hall hread hcall

/-- The only free page is overwritten, and the write of the metadata fails. -/
theorem allocPage_not_atomic :
    ∃ index file', StoreAt oneFreePage 2 [1] ∧
      allocPage (some blankPage) (some ⟨3⟩)
        ⟨oneFreePage, [.full, .full, .full, .failed]⟩ =
          (.badWrite, index, file') ∧
      ¬ChainKept oneFreePage file'.image := by
  have hstore := storeAt_oneFreePage
  have hall : AllOrNothing [.full, .full, .full, .failed] := by decide
  have hkin : InFile oneFreePage 1 := hstore.inFile (by decide)
  have hover : Overwrites (some blankPage) 1 1 := rfl
  have hcall : allocPage (some blankPage) (some ⟨3⟩)
      ⟨oneFreePage, [.full, .full, .full, .failed]⟩ = (.badWrite, errSet,
        ⟨writePage oneFreePage 1 blankPage, []⟩) := by
    rw [allocPage_read_cons hstore hall (by decide),
      allocRecycled_eq hall.tail (by decide) hkin hstore.freelist.head_cons
        (by decide) hover]
    rfl
  refine ⟨errSet, _, hstore, hcall, ?_⟩
  have hmeta : pageAt (writePage oneFreePage 1 blankPage) 0 =
      pageAt oneFreePage 0 := pageAt_writePage_of_ne _ (by decide)
  intro hkept
  have hlink := (hstore.chainKept_iff hmeta).mp hkept 1 (by decide)
  rw [pageAt_writePage_self, linkWord_blankPage] at hlink
  exact hstore.linkWord_ne_zero (by decide) hlink.symm

/-- Nothing changes if the first free page is overwritten with contents that
start with its link word, and the write of the metadata fails. -/
theorem allocPage_atomic_relinked :
    ∃ index file', allocPage (some (linkPage (-1))) (some ⟨3⟩)
        ⟨oneFreePage, [.full, .full, .full, .failed]⟩ =
          (.badWrite, index, file') ∧
      AllocUndone oneFreePage file'.image 2 [1] := by
  have hstore := storeAt_oneFreePage
  have hall : AllOrNothing [.full, .full, .full, .failed] := by decide
  have hkin : InFile oneFreePage 1 := hstore.inFile (by decide)
  have hover : Overwrites (some (linkPage (-1))) 1 1 := rfl
  have hcall : allocPage (some (linkPage (-1))) (some ⟨3⟩)
      ⟨oneFreePage, [.full, .full, .full, .failed]⟩ = (.badWrite, errSet,
        ⟨writePage oneFreePage 1 (linkPage (-1)), []⟩) := by
    rw [allocPage_read_cons hstore hall (by decide),
      allocRecycled_eq hall.tail (by decide) hkin hstore.freelist.head_cons
        (by decide) hover]
    rfl
  have hnothing : OverwritesNothing oneFreePage (some (linkPage (-1))) := by
    rw [OverwritesNothing, hstore.freelist.head_cons,
      nextFree_pageOffset (by decide), pageAt_oneFreePage]
  have hunwritten : AllocFailsUnwritten oneFreePage
      [.full, .full, .full, .failed] (some (linkPage (-1))) :=
    Or.inr (Or.inr (Or.inr (Or.inr (Or.inr hnothing))))
  exact ⟨_, _, hcall,
    (allocPage_atomic_iff hstore hall hcall).1.mpr hunwritten (by decide)⟩

end NickDB

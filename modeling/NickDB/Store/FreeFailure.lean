import NickDB.Store.BlankAllocation
import NickDB.Store.Failures

/-!
# Failures of `free_page`

`free_page` writes up to three pages in a row: the last free page, which is
linked to the new one, the new free page itself, and the metadata.  When a write
fails, the ones before it are not taken back.  This module states exactly for
which failures nothing has changed.
-/

namespace NickDB

open Linked

/-- The page `index`, the list of free pages and the metadata are as before, and
no page has been cut off. -/
structure FreeUndone (image image' : ByteFile UInt8) (index : PageIndex) :
    Prop where
  length_le : image.length ≤ image'.length
  metadata : pageAt image' 0 = pageAt image 0
  chain : ChainKept image image'
  contents :
    image'.read (position (indexToOffset index)) pageSize =
      image.read (position (indexToOffset index)) pageSize

/-- The page `index` already is the last free page. -/
def AlreadyFreed (image : ByteFile UInt8) (index : PageIndex) : Prop :=
  image.read (position (indexToOffset index)) pageSize = linkPage (-1)

/-- The call is refused or fails before its first write, or it does not fail at
all, or the writes before the failure write what is there already. -/
def FailsUnwritten (image : ByteFile UInt8) (schedule : List Transfer)
    (index : PageIndex) : Prop :=
  indexToOffset index = 0 ∨ Fails schedule 0 ∨ Fails schedule 1 ∨
    if freelistHead (pageAt image 0) = emptyList then
      indexToOffset index < 0 ∨ ¬Fails schedule 2 ∨ AlreadyFreed image index
    else
      ¬indexToOffset index < 0 ∧ ¬Fails schedule 2 ∧
        (¬Fails schedule 3 ∨
          (freelistTail (pageAt image 0) = indexToOffset index ∧
            AlreadyFreed image index))

variable {image image' : ByteFile UInt8} {schedule : List Transfer}
  {size : ℕ} {free : List ℕ} {store : Backing} {index : PageIndex}

theorem FreeUndone.refl (image : ByteFile UInt8) (index : PageIndex) :
    FreeUndone image image index :=
  ⟨Nat.le_refl _, rfl, fun _ => Iff.rfl, rfl⟩

theorem read_page {k : ℕ} (hk : k < pageLimit)
    (hloc : indexToOffset index = pageOffset k) :
    image.read (position (indexToOffset index)) pageSize = pageAt image k := by
  rw [hloc, position_pageOffset hk]
  rfl

/-! ## The failures of a call -/

/-- The metadata page cannot be read. -/
theorem freePage_unread (h : StoreAt image size free)
    (hall : AllOrNothing schedule) (hfails : Fails schedule 0)
    (hloc : indexToOffset index ≠ 0) :
    freePage (some store) ⟨image, schedule⟩ index =
      (.badRead, ⟨image, schedule.tail⟩) := by
  simp only [freePage, if_neg hloc, indexToOffset_zero,
    hall.pread_page _ (by decide) h.inFile_zero, if_pos hfails]
  simp [pageSize]

/-- The metadata page is read and no page is free. -/
theorem freePage_read_empty (h : StoreAt image size [])
    (hall : AllOrNothing schedule) (hfails : ¬Fails schedule 0)
    (hloc : indexToOffset index ≠ 0) :
    freePage (some store) ⟨image, schedule⟩ index =
      freeFirst (pageAt image 0) (indexToOffset index)
        ⟨image, schedule.tail⟩ := by
  have hempty : freelistTail (pageAt image 0) = -1 ∧
      freelistHead (pageAt image 0) = -1 :=
    ⟨h.freelist.tail_nil, h.freelist.head_nil⟩
  simp only [freePage, if_neg hloc, indexToOffset_zero,
    hall.pread_page _ (by decide) h.inFile_zero, if_neg hfails, if_pos hempty]
  simp

/-- The metadata page is read and the page number `t` is the last free one. -/
theorem freePage_read_nonempty {front : List ℕ} {t : ℕ}
    (h : StoreAt image size (front ++ [t]))
    (hall : AllOrNothing schedule) (hfails : ¬Fails schedule 0)
    (hloc : indexToOffset index ≠ 0) :
    freePage (some store) ⟨image, schedule⟩ index =
      freeAppended (pageAt image 0) (indexToOffset index)
        ⟨image, schedule.tail⟩ := by
  have ht : t < pageLimit := h.freelist.limit t (by simp)
  have hnonempty : ¬(freelistTail (pageAt image 0) = -1 ∧
      freelistHead (pageAt image 0) = -1) := fun hempty =>
    pageOffset_ne_emptyList ht (h.freelist.tail_snoc.symm.trans hempty.1)
  simp only [freePage, if_neg hloc, indexToOffset_zero,
    hall.pread_page _ (by decide) h.inFile_zero, if_neg hfails,
    if_neg hnonempty]
  simp

/-- The writes of the first free page. -/
theorem freeFirst_eq {metadata : Page} {k : ℕ} (hall : AllOrNothing schedule)
    (hk : k < pageLimit) :
    freeFirst metadata (pageOffset k) ⟨image, schedule⟩ =
      if Fails schedule 0 then (.badWrite, ⟨image, schedule.tail⟩)
      else if Fails schedule 1 then
        (.badWrite, ⟨writePage image k (linkPage (-1)), schedule.tail.tail⟩)
      else (.ok, ⟨writePage (writePage image k (linkPage (-1))) 0
        (setTail (setHead metadata (pageOffset k)) (pageOffset k)),
          schedule.tail.tail⟩) := by
  simp only [freeFirst, hall.pwrite_page _ hk, indexToOffset_zero]
  by_cases hpage : Fails schedule 0
  · simp [if_pos hpage, pageSize]
  · simp only [if_neg hpage,
      hall.tail.pwrite_page _ (by decide : 0 < pageLimit), fails_tail]
    by_cases hmeta : Fails schedule 1
    · simp [if_pos hmeta, pageSize]
    · simp [if_neg hmeta]

/-- The writes of a further free page. -/
theorem freeAppended_eq {metadata : Page} {k t : ℕ}
    (hall : AllOrNothing schedule) (hk : k < pageLimit) (ht : t < pageLimit)
    (htail : freelistTail metadata = pageOffset t) :
    freeAppended metadata (pageOffset k) ⟨image, schedule⟩ =
      if Fails schedule 0 then (.badWrite, ⟨image, schedule.tail⟩)
      else if Fails schedule 1 then
        (.badWrite, ⟨writePage image t (linkPage (pageOffset k)),
          schedule.tail.tail⟩)
      else if Fails schedule 2 then
        (.badWrite, ⟨writePage (writePage image t (linkPage (pageOffset k))) k
          (linkPage (-1)), schedule.tail.tail.tail⟩)
      else (.ok, ⟨writePage (writePage
        (writePage image t (linkPage (pageOffset k))) k (linkPage (-1))) 0
          (setTail metadata (pageOffset k)), schedule.tail.tail.tail⟩) := by
  simp only [freeAppended, htail, hall.pwrite_page _ ht, indexToOffset_zero]
  by_cases hold : Fails schedule 0
  · simp [if_pos hold, pageSize]
  · simp only [if_neg hold, hall.tail.pwrite_page _ hk, fails_tail]
    by_cases hpage : Fails schedule 1
    · simp [if_pos hpage, pageSize]
    · simp only [if_neg hpage, fails_tail,
        hall.tail.tail.pwrite_page _ (by decide : 0 < pageLimit)]
      by_cases hmeta : Fails schedule 2
      · simp [if_pos hmeta, pageSize]
      · simp [if_neg hmeta]

/-- A page at a negative offset is linked behind the last free page before the
write of the page itself fails. -/
theorem freeAppended_neg {metadata : Page} {t : ℕ} {offset : ByteOffset}
    (hall : AllOrNothing schedule) (hneg : offset < 0) (ht : t < pageLimit)
    (htail : freelistTail metadata = pageOffset t) :
    freeAppended metadata offset ⟨image, schedule⟩ =
      if Fails schedule 0 then (.badWrite, ⟨image, schedule.tail⟩)
      else (.badWrite, ⟨writePage image t (linkPage offset),
        schedule.tail⟩) := by
  simp only [freeAppended, htail, hall.pwrite_page _ ht]
  by_cases hold : Fails schedule 0
  · simp [if_pos hold, pageSize]
  · simp only [if_neg hold, pwrite_neg _ _ hneg]
    simp [pageSize]

/-! ## Writes that change nothing -/

/-- On an empty list only the page itself has been written. -/
theorem StoreAt.freeUndone_first_iff (h : StoreAt image size []) {k : ℕ}
    (hpos : 1 ≤ k) (hk : k < pageLimit)
    (hloc : indexToOffset index = pageOffset k) :
    FreeUndone image (writePage image k (linkPage (-1))) index ↔
      AlreadyFreed image index := by
  have hmeta : pageAt (writePage image k (linkPage (-1))) 0 =
      pageAt image 0 := pageAt_writePage_of_ne _ (by omega)
  rw [AlreadyFreed, read_page hk hloc]
  constructor
  · intro hundone
    have hcontents := hundone.contents
    rwa [read_page hk hloc, read_page hk hloc, pageAt_writePage_self, eq_comm]
      at hcontents
  · intro hfreed
    refine ⟨image.length_le_length_write _ _, hmeta,
      (h.chainKept_iff hmeta).mpr (by simp), ?_⟩
    rw [read_page hk hloc, read_page hk hloc, pageAt_writePage_self, hfreed]

/-- Linking the last free page to another one changes the list. -/
theorem StoreAt.not_chainKept {front : List ℕ} {t : ℕ}
    (h : StoreAt image size (front ++ [t]))
    (hmeta : pageAt image' 0 = pageAt image 0)
    (hlink : linkWord (pageAt image' t) ≠ emptyList) :
    ¬ChainKept image image' := by
  have ht : t < pageLimit := h.freelist.limit t (by simp)
  have hpath := h.freelist.path
  rw [List.map_append, List.map_singleton, path_append_singleton,
    nextFree_pageOffset ht, linkTarget_inj] at hpath
  rw [h.chainKept_iff hmeta]
  intro hkept
  exact hlink ((hkept t (by simp)).trans hpath.2)

/-- The last free page has been linked to a page that was not written. -/
theorem StoreAt.not_freeUndone_linked {front : List ℕ} {t : ℕ}
    {offset : ByteOffset} (h : StoreAt image size (front ++ [t]))
    (hne : offset ≠ emptyList) :
    ¬FreeUndone image (writePage image t (linkPage offset)) index := by
  have ht0 : t ≠ 0 := h.freelist.ne_zero (by simp)
  have hmeta : pageAt (writePage image t (linkPage offset)) 0 =
      pageAt image 0 := pageAt_writePage_of_ne _ ht0.symm
  intro hundone
  refine h.not_chainKept hmeta ?_ hundone.chain
  rwa [pageAt_writePage_self, linkWord_linkPage]

/-- Both pages have been written, but not the metadata. -/
theorem StoreAt.freeUndone_appended_iff {front : List ℕ} {k t : ℕ}
    (h : StoreAt image size (front ++ [t])) (hpos : 1 ≤ k)
    (hk : k < pageLimit) (hloc : indexToOffset index = pageOffset k) :
    FreeUndone image (writePage (writePage image t (linkPage (pageOffset k))) k
        (linkPage (-1))) index ↔
      freelistTail (pageAt image 0) = indexToOffset index ∧
        AlreadyFreed image index := by
  have ht : t < pageLimit := h.freelist.limit t (by simp)
  have ht0 : t ≠ 0 := h.freelist.ne_zero (by simp)
  have hmeta : pageAt (writePage (writePage image t
      (linkPage (pageOffset k))) k (linkPage (-1))) 0 = pageAt image 0 := by
    rw [pageAt_writePage_of_ne _ (by omega), pageAt_writePage_of_ne _ ht0.symm]
  rw [AlreadyFreed, read_page hk hloc, h.freelist.tail_snoc, hloc,
    pageOffset_inj ht hk]
  by_cases htk : t = k
  · subst htk
    rw [writePage_writePage_self] at hmeta ⊢
    constructor
    · intro hundone
      have hcontents := hundone.contents
      rw [read_page hk hloc, read_page hk hloc, pageAt_writePage_self]
        at hcontents
      exact ⟨rfl, hcontents.symm⟩
    · rintro ⟨-, hfreed⟩
      refine ⟨image.length_le_length_write _ _, hmeta,
        (h.chainKept_iff hmeta).mpr fun j _ => ?_, ?_⟩
      · by_cases hj : j = t
        · rw [hj, pageAt_writePage_self, hfreed]
        · rw [pageAt_writePage_of_ne _ hj]
      · rw [read_page hk hloc, read_page hk hloc, pageAt_writePage_self,
          hfreed]
  · refine iff_of_false (fun hundone => ?_) fun hsame => htk hsame.1
    refine h.not_chainKept hmeta ?_ hundone.chain
    rw [pageAt_writePage_of_ne _ htk, pageAt_writePage_self,
      linkWord_linkPage]
    exact pageOffset_ne_emptyList hk

/-! ## Failing calls -/

theorem freePage_atomic_of_empty {status : Status} {file' : StoreFile}
    (h : StoreAt image size []) (hall : AllOrNothing schedule)
    (hread : ¬Fails schedule 0) (hloc : indexToOffset index ≠ 0)
    (hcall : freePage (some store) ⟨image, schedule⟩ index =
      (status, file')) :
    (status ≠ .ok → FreeUndone image file'.image index) ↔
      (Fails schedule 1 ∨ indexToOffset index < 0 ∨ ¬Fails schedule 2 ∨
        AlreadyFreed image index) := by
  rw [freePage_read_empty h hall hread hloc] at hcall
  rcases indexToOffset_cases index with hzero | hneg | ⟨k, hpos, hk, hpage⟩
  · exact absurd hzero hloc
  · simp only [freeFirst, pwrite_neg _ _ hneg] at hcall
    simp only [pageSize, ne_eq] at hcall
    cases hcall
    exact iff_of_true (fun _ => FreeUndone.refl image index)
      (Or.inr (Or.inl hneg))
  · have hnneg : ¬indexToOffset index < 0 := hpage ▸ not_pageOffset_neg hk
    rw [hpage, freeFirst_eq hall.tail hk] at hcall
    simp only [fails_tail] at hcall
    by_cases hwrite : Fails schedule 1
    · rw [if_pos hwrite] at hcall
      cases hcall
      exact iff_of_true (fun _ => FreeUndone.refl image index) (Or.inl hwrite)
    by_cases hmeta : Fails schedule 2
    · rw [if_neg hwrite, if_pos hmeta] at hcall
      cases hcall
      simp [h.freeUndone_first_iff hpos hk hpage, hwrite, hmeta, hnneg]
    · rw [if_neg hwrite, if_neg hmeta] at hcall
      cases hcall
      exact iff_of_true (fun hne => absurd rfl hne)
        (Or.inr (Or.inr (Or.inl hmeta)))

theorem freePage_atomic_of_nonempty {status : Status} {file' : StoreFile}
    {front : List ℕ} {t : ℕ} (h : StoreAt image size (front ++ [t]))
    (hall : AllOrNothing schedule) (hread : ¬Fails schedule 0)
    (hloc : indexToOffset index ≠ 0)
    (hcall : freePage (some store) ⟨image, schedule⟩ index =
      (status, file')) :
    (status ≠ .ok → FreeUndone image file'.image index) ↔
      (Fails schedule 1 ∨ ¬indexToOffset index < 0 ∧ ¬Fails schedule 2 ∧
        (¬Fails schedule 3 ∨
          (freelistTail (pageAt image 0) = indexToOffset index ∧
            AlreadyFreed image index))) := by
  have ht : t < pageLimit := h.freelist.limit t (by simp)
  rw [freePage_read_nonempty h hall hread hloc] at hcall
  rcases indexToOffset_cases index with hzero | hneg | ⟨k, hpos, hk, hpage⟩
  · exact absurd hzero hloc
  · rw [freeAppended_neg hall.tail hneg ht h.freelist.tail_snoc] at hcall
    simp only [fails_tail] at hcall
    by_cases hold : Fails schedule 1
    · rw [if_pos hold] at hcall
      cases hcall
      exact iff_of_true (fun _ => FreeUndone.refl image index) (Or.inl hold)
    · rw [if_neg hold] at hcall
      cases hcall
      have hne := indexToOffset_ne_emptyList index
      simp [h.not_freeUndone_linked hne, hold, hneg]
  · have hnneg : ¬indexToOffset index < 0 := hpage ▸ not_pageOffset_neg hk
    rw [hpage, freeAppended_eq hall.tail hk ht h.freelist.tail_snoc] at hcall
    simp only [fails_tail] at hcall
    by_cases hold : Fails schedule 1
    · rw [if_pos hold] at hcall
      cases hcall
      exact iff_of_true (fun _ => FreeUndone.refl image index) (Or.inl hold)
    by_cases hwrite : Fails schedule 2
    · rw [if_neg hold, if_pos hwrite] at hcall
      cases hcall
      simp [h.not_freeUndone_linked (pageOffset_ne_emptyList hk), hold, hwrite]
    by_cases hmeta : Fails schedule 3
    · rw [if_neg hold, if_neg hwrite, if_pos hmeta] at hcall
      cases hcall
      simp [h.freeUndone_appended_iff hpos hk hpage, hold, hwrite, hmeta,
        hnneg]
    · rw [if_neg hold, if_neg hwrite, if_neg hmeta] at hcall
      cases hcall
      exact iff_of_true (fun hne => absurd rfl hne)
        (Or.inr ⟨hnneg, hwrite, Or.inl hmeta⟩)

/-- A failing `free_page` changes nothing exactly when it has not written
anything new before it fails; and where it changes nothing, the store is
well-formed with the same free pages. -/
theorem freePage_atomic_iff {status : Status} {file' : StoreFile}
    (h : StoreAt image size free) (hall : AllOrNothing schedule)
    (hcall : freePage (some store) ⟨image, schedule⟩ index =
      (status, file')) :
    ((status ≠ .ok → FreeUndone image file'.image index) ↔
      FailsUnwritten image schedule index) ∧
    (FreeUndone image file'.image index → StoreAt file'.image size free) := by
  refine ⟨?_, fun hundone =>
    h.of_chainKept hundone.length_le hundone.metadata hundone.chain⟩
  unfold FailsUnwritten
  by_cases hzero : indexToOffset index = 0
  · rw [freePage_zero store _ hzero] at hcall
    cases hcall
    exact iff_of_true (fun _ => FreeUndone.refl image index) (Or.inl hzero)
  by_cases hread : Fails schedule 0
  · rw [freePage_unread h hall hread hzero] at hcall
    cases hcall
    exact iff_of_true (fun _ => FreeUndone.refl image index)
      (Or.inr (Or.inl hread))
  rw [or_iff_right hzero, or_iff_right hread]
  rcases List.eq_nil_or_concat free with rfl | ⟨front, t, rfl⟩
  · rw [if_pos h.freelist.head_nil]
    exact freePage_atomic_of_empty h hall hread hzero hcall
  · rw [List.concat_eq_append] at h
    have hhead : freelistHead (pageAt image 0) ≠ emptyList := by
      intro hempty
      have hpath := h.freelist.path
      rw [hempty, linkTarget_emptyList] at hpath
      cases front with
      | nil => exact absurd hpath.1 nofun
      | cons k front => exact absurd hpath.1 nofun
    rw [if_neg hhead]
    exact freePage_atomic_of_nonempty h hall hread hzero hcall

/-- Page 1 of three is free and page 2 is freed, but the write of page 2 fails:
the list of free pages has changed. -/
theorem freePage_not_atomic :
    ∃ image file', StoreAt image 3 [1] ∧
      freePage (some ⟨3⟩) ⟨image, [.full, .full, .failed]⟩ 2 =
        (.badWrite, file') ∧
      ¬ChainKept image file'.image := by
  obtain ⟨image, -, hstore, -⟩ :=
    (storeAt_blankStore (n := 2) (by decide)).free_page (k := 1) ⟨3⟩
      (by decide) (by decide)
  have hone : StoreAt image 3 ([] ++ [1]) := hstore
  have hall : AllOrNothing [.full, .full, .failed] := by decide
  have hloc : indexToOffset 2 = pageOffset 2 := indexToOffset_ofNat 2
  have hcall : freePage (some ⟨3⟩) ⟨image, [.full, .full, .failed]⟩ 2 =
      (.badWrite, ⟨writePage image 1 (linkPage (pageOffset 2)), []⟩) := by
    rw [freePage_read_nonempty hone hall (by decide) (by decide), hloc,
      freeAppended_eq hall.tail (by decide) (by decide)
        hone.freelist.tail_snoc]
    rfl
  refine ⟨image, _, hstore, hcall, ?_⟩
  refine hone.not_chainKept (pageAt_writePage_of_ne _ (by decide)) ?_
  have hpage : pageAt (writePage image 1 (linkPage (pageOffset 2))) 1 =
      linkPage (pageOffset 2) := pageAt_writePage_self 1 _
  simp only [hpage, linkWord_linkPage]
  exact pageOffset_ne_emptyList (by decide)

/-- Nothing changes if the last free page is freed again and only the write of
the metadata fails. -/
theorem freePage_atomic_again :
    ∃ file', freePage (some ⟨3⟩)
        ⟨oneFreePage, [.full, .full, .full, .failed]⟩ 1 = (.badWrite, file') ∧
      FreeUndone oneFreePage file'.image 1 := by
  have hstore : StoreAt oneFreePage 2 ([] ++ [1]) := storeAt_oneFreePage
  have hall : AllOrNothing [.full, .full, .full, .failed] := by decide
  have hloc : indexToOffset 1 = pageOffset 1 := indexToOffset_ofNat 1
  have hhead : freelistHead (pageAt oneFreePage 0) ≠ emptyList := by
    rw [storeAt_oneFreePage.freelist.head_cons]
    exact pageOffset_ne_emptyList (by decide)
  have hfreed : AlreadyFreed oneFreePage 1 := by
    rw [AlreadyFreed, read_page (by decide) hloc, pageAt_oneFreePage]
  have hcall : freePage (some ⟨3⟩)
      ⟨oneFreePage, [.full, .full, .full, .failed]⟩ 1 = (.badWrite,
        ⟨writePage (writePage oneFreePage 1 (linkPage (pageOffset 1))) 1
          (linkPage (-1)), []⟩) := by
    rw [freePage_read_nonempty hstore hall (by decide) (by decide), hloc,
      freeAppended_eq hall.tail (by decide) (by decide)
        hstore.freelist.tail_snoc]
    rfl
  have hunwritten : FailsUnwritten oneFreePage
      [.full, .full, .full, .failed] 1 := by
    refine Or.inr (Or.inr (Or.inr ?_))
    rw [if_neg hhead, hstore.freelist.tail_snoc, hloc]
    exact ⟨by decide, by decide, Or.inr ⟨rfl, hfreed⟩⟩
  exact ⟨_, hcall,
    (freePage_atomic_iff hstore hall hcall).1.mpr hunwritten (by decide)⟩

end NickDB

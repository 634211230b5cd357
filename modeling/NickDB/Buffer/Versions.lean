import NickDB.Buffer.Session

/-!
# Versions of pages

A client makes a new version of a page by writing to its frame and marking the
frame.  Which version of a page is the latest is not part of the manager's
state; it follows from the calls and is kept next to it, page by page.  Pages
are told apart by their byte offset, as the store does.
-/

namespace NickDB

open BufferManager

variable {frames : ℕ}

/-- The byte offset of the page of a frame. -/
def BufferManager.offset (manager : BufferManager frames) (f : Fin frames) :
    ByteOffset :=
  indexToOffset (manager.index f)

/-- The latest version of each page that has been marked and not been freed
since. -/
abbrev Versions := ByteOffset → Option Page

/-- The versions after a call.  Bytes that are written to a frame which is
marked already count at once. -/
def versionsAfter (manager : BufferManager frames) (latest : Versions) :
    BufferEvent frames → Versions
  | .mark f .ok =>
      Function.update latest (manager.offset f) (some (manager.buffer f))
  | .write f page =>
      if manager.state f = .pinnedDirty then
        Function.update latest (manager.offset f) (some page)
      else latest
  | .freeFrame (some f) .ok =>
      Function.update latest (manager.offset f) none
  | _ => latest

/-- A step together with the versions. -/
def versionStep (s : World frames × Versions) (event : BufferEvent frames)
    (t : World frames × Versions) : Prop :=
  bufferStep s.1 event t.1 ∧ t.2 = versionsAfter s.1.manager s.2 event

/-- The bytes of the file at the offset of a page. -/
def storedPage (image : ByteFile UInt8) (offset : ByteOffset) : Page :=
  image.read (position offset) pageSize

variable {image : ByteFile UInt8} {file file' : StoreFile}
  {store : Option Backing} {index : PageIndex}

theorem storedPage_pageOffset {k : ℕ} (hk : k < pageLimit) :
    storedPage image (pageOffset k) = pageAt image k := by
  rw [storedPage, position_pageOffset hk]
  rfl

/-! ## Writing a page -/

/-- A page that was put is stored. -/
theorem storedPage_write_self (src : Page) (offset : ByteOffset) :
    storedPage (image.write (position offset) src) offset = src :=
  image.read_write_self _ src

/-- Writing a page leaves the pages at other offsets alone. -/
theorem storedPage_write_of_ne {index' : PageIndex} (src : Page)
    (hzero : indexToOffset index ≠ 0) (hneg : ¬indexToOffset index < 0)
    (hne : indexToOffset index' ≠ indexToOffset index) :
    storedPage (image.write (position (indexToOffset index)) src)
        (indexToOffset index') =
      storedPage image (indexToOffset index') := by
  obtain ⟨k, hk, hloc⟩ := exists_page_of_not_neg hneg
  have hpos : k ≠ 0 := by
    rintro rfl
    exact hzero (hloc.trans pageOffset_zero)
  have hwrite : image.write (position (indexToOffset index)) src =
      writePage image k src := by
    rw [hloc, position_pageOffset hk]
    rfl
  rw [hwrite]
  -- the position of a negative offset is that of the metadata page
  have hother : ∃ j, j ≠ k ∧
      position (indexToOffset index') = pageSize * j := by
    by_cases hneg' : indexToOffset index' < 0
    · refine ⟨0, hpos.symm, ?_⟩
      rw [position, Int64.toNatClampNeg]
      rw [Int64.lt_iff_toInt_lt, Int64.toInt_zero] at hneg'
      omega
    · obtain ⟨j, hj, hloc'⟩ := exists_page_of_not_neg hneg'
      refine ⟨j, ?_, ?_⟩
      · rintro rfl
        exact hne (hloc'.trans hloc.symm)
      · rw [hloc', position_pageOffset hj]
  obtain ⟨j, hj, hposition⟩ := hother
  rw [storedPage, storedPage, hposition]
  exact pageAt_writePage_of_ne src hj

/-! ## Files of whole pages -/

/-- All transfers succeed, and the file ends with a whole page. -/
structure WholeFile (file : StoreFile) : Prop where
  schedule : file.schedule = []
  aligned : pageSize ∣ file.image.length

theorem WholeFile.eq_reliable (h : WholeFile file) :
    file = reliable file.image :=
  StoreFile.ext rfl h.schedule

/-- A read that fails leaves the buffer alone. -/
theorem WholeFile.getPage (h : WholeFile file) {dest page : Page}
    {status : Status}
    (hget : getPage dest store file index = (status, page, file')) :
    file' = file ∧ (status ≠ .ok → page = dest) := by
  have heq := h.eq_reliable
  cases store with
  | none =>
      rw [getPage_no_store] at hget
      cases hget
      exact ⟨rfl, fun _ => rfl⟩
  | some store =>
      rw [heq] at hget
      rcases indexToOffset_cases index with hzero | hneg | ⟨k, hpos, hk, hloc⟩
      · rw [getPage_zero store dest _ hzero] at hget
        cases hget
        exact ⟨heq.symm, fun _ => rfl⟩
      · rw [getPage_neg store dest _ hneg] at hget
        cases hget
        exact ⟨heq.symm, fun _ => rfl⟩
      · rcases inFile_or_past_end h.aligned k with hin | hend
        · rw [getPage_page store dest hpos hk hloc hin] at hget
          cases hget
          exact ⟨heq.symm, fun hstatus => absurd rfl hstatus⟩
        · rw [getPage_past_end store dest hpos hk hloc hend] at hget
          cases hget
          exact ⟨heq.symm, fun _ => rfl⟩

theorem WholeFile.putPage (h : WholeFile file) (src : Page) :
    WholeFile (putPage src store file index).2 := by
  have heq := h.eq_reliable
  cases store with
  | none =>
      rw [putPage_no_store]
      exact h
  | some store =>
      rw [heq]
      rcases indexToOffset_cases index with hzero | hneg | ⟨k, hpos, hk, hloc⟩
      · rw [putPage_zero store src _ hzero]
        exact ⟨rfl, h.aligned⟩
      · rw [putPage_neg store src _ hneg]
        exact ⟨rfl, h.aligned⟩
      · rw [putPage_page store src hpos hk hloc]
        exact ⟨rfl, aligned_writePage h.aligned k src⟩

end NickDB

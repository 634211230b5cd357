import NickDB.Store.Session

/-!
# The metadata page under arbitrary calls

`free_page`, `get_page` and `put_page` refuse offset 0, whatever index they are
given.  `alloc_page` has no such check: it takes the head of the list of free
pages as it finds it, and the next head is a word read from a free page, which
`put_page` may have overwritten.  The metadata page stays a record of a size
and two page offsets exactly as long as `alloc_page` finds an intact link word.
-/

namespace NickDB

open Runs

/-- The metadata page with the given fields. -/
def metadataRecord (size : PageIndex) (head tail : ByteOffset) : Page :=
  setTail (setHead (setSize blankPage size) head) tail

/-- A word that may stand as head or tail: `-1` or the offset of a page other
than the metadata page. -/
def IsPageLink (offset : ByteOffset) : Prop :=
  offset = emptyList ∨ (offset ≠ 0 ∧ 4096 ∣ offset.toInt)

/-- Page 0 is a record of a size and two page links. -/
def MetadataExact (image : ByteFile UInt8) : Prop :=
  ∃ size head tail, pageAt image 0 = metadataRecord size head tail ∧
    IsPageLink head ∧ IsPageLink tail

/-- The call neither hands out nor copies out page 0, leaves it alone unless it
is `alloc_page` or `free_page`, and leaves a record there. -/
def KeepsMetadata (file : StoreFile) (event : StoreEvent)
    (file' : StoreFile) : Prop :=
  MetadataExact file'.image ∧
    match event with
    | .alloc _ status index => status = .ok → index ≠ 0
    | .free _ _ => True
    | .get dest _ status read =>
        pageAt file'.image 0 = pageAt file.image 0 ∧
          if status = .ok then ∃ k, 1 ≤ k ∧ read = pageAt file.image k
          else read = dest
    | .put _ _ _ => pageAt file'.image 0 = pageAt file.image 0

/-- The word at an offset of the file. -/
def wordAt (image : ByteFile UInt8) (offset : ByteOffset) : ByteOffset :=
  Words.load (image.read (position offset) 8) 0 Words.fits

/-- When `alloc_page` takes a page off the list, the link word it finds there
may stand as the next head. -/
def LinkIntact (file : StoreFile) : StoreEvent → Prop
  | .alloc src _ _ =>
      let head := freelistHead (pageAt file.image 0)
      head = emptyList ∨ head < 0 ∨ file.image.length ≤ position head ∨
        (src = none ∧ indexToOffset head < 0) ∨
        IsPageLink (wordAt file.image head)
  | _ => True

/-! ## Records -/

section Records

variable (size size' : PageIndex) (head head' tail tail' : ByteOffset)

@[simp] theorem metaSize_metadataRecord :
    metaSize (metadataRecord size head tail) = size := by
  simp [metadataRecord]

@[simp] theorem freelistHead_metadataRecord :
    freelistHead (metadataRecord size head tail) = head := by
  simp [metadataRecord]

@[simp] theorem freelistTail_metadataRecord :
    freelistTail (metadataRecord size head tail) = tail := by
  simp [metadataRecord]

theorem setSize_setHead (page : Page) :
    setSize (setHead page head) size = setHead (setSize page size) head :=
  Words.store_comm _ _ _ (Or.inl (by decide))

theorem setSize_setTail (page : Page) :
    setSize (setTail page tail) size = setTail (setSize page size) tail :=
  Words.store_comm _ _ _ (Or.inl (by decide))

theorem setHead_setTail (page : Page) :
    setHead (setTail page tail) head = setTail (setHead page head) tail :=
  Words.store_comm _ _ _ (Or.inl (by decide))

@[simp] theorem setTail_metadataRecord :
    setTail (metadataRecord size head tail) tail' =
      metadataRecord size head tail' :=
  Words.store_store_self _ _ _ _

@[simp] theorem setHead_metadataRecord :
    setHead (metadataRecord size head tail) head' =
      metadataRecord size head' tail := by
  rw [metadataRecord, setHead_setTail]
  exact congrArg (setTail · tail) (Words.store_store_self _ _ _ _)

@[simp] theorem setSize_metadataRecord :
    setSize (metadataRecord size head tail) size' =
      metadataRecord size' head tail := by
  rw [metadataRecord, setSize_setTail, setSize_setHead]
  exact congrArg (fun page => setTail (setHead page head) tail)
    (Words.store_store_self _ _ _ _)

theorem popHead_metadataRecord (next : ByteOffset) :
    popHead (metadataRecord size head tail) next =
      metadataRecord size next (if head = tail then next else tail) := by
  unfold popHead
  by_cases h : head = tail
  · simp [h]
  · simp [h]

end Records

theorem wordAt_pageOffset {image : ByteFile UInt8} {k : ℕ}
    (hk : k < pageLimit) :
    wordAt image (pageOffset k) = linkWord (pageAt image k) := by
  rw [wordAt, position_pageOffset hk]
  rfl

theorem isPageLink_emptyList : IsPageLink emptyList := Or.inl rfl

theorem isPageLink_pageOffset {k : ℕ} (hpos : 1 ≤ k) (hk : k < pageLimit) :
    IsPageLink (pageOffset k) :=
  Or.inr ⟨pageOffset_ne_zero hpos hk, toInt_pageOffset hk ▸ Dvd.intro k rfl⟩

/-- A page link that is not negative names a page other than page 0. -/
theorem IsPageLink.exists_page {offset : ByteOffset} (h : IsPageLink offset)
    (hneg : ¬offset < 0) :
    ∃ k, 1 ≤ k ∧ k < pageLimit ∧ offset = pageOffset k := by
  rcases h with rfl | ⟨hzero, j, hj⟩
  · exact absurd (by decide) hneg
  have hlt := offset.toInt_lt
  have hzero' : offset.toInt ≠ 0 := fun h0 =>
    hzero (Int64.toInt_inj.mp (h0.trans Int64.toInt_zero.symm))
  rw [Int64.lt_iff_toInt_lt, Int64.toInt_zero] at hneg
  obtain ⟨k, rfl⟩ := Int.eq_ofNat_of_zero_le (show 0 ≤ j by omega)
  have hk : k < pageLimit := by
    simp only [pageLimit]
    omega
  refine ⟨k, by omega, hk, Int64.toInt_inj.mp ?_⟩
  rw [hj, toInt_pageOffset hk]

/-! ## The invariant -/

/-- Page 0 is a record, the number of pages counts pages other than page 0 that
can be appended, and the file is a sequence of whole pages. -/
structure MetadataSound (file : StoreFile) : Prop where
  schedule : file.schedule = []
  in_file : InFile file.image 0
  aligned : pageSize ∣ file.image.length
  record : ∃ n head tail,
    pageAt file.image 0 = metadataRecord (Int64.ofNat n) head tail ∧
    1 ≤ n ∧ n ≤ pageLimit ∧ IsPageLink head ∧ IsPageLink tail

variable {file file' : StoreFile} {store : Backing}

theorem MetadataSound.eq_reliable (h : MetadataSound file) :
    file = reliable file.image :=
  StoreFile.ext rfl h.schedule

theorem MetadataSound.exact (h : MetadataSound file) :
    MetadataExact file.image := by
  obtain ⟨n, head, tail, hrecord, -, -, hhead, htail⟩ := h.record
  exact ⟨Int64.ofNat n, head, tail, hrecord, hhead, htail⟩

/-- A write to a page other than page 0. -/
theorem MetadataSound.writePage (h : MetadataSound file) {k : ℕ}
    (hk : 1 ≤ k) (page : Page) :
    MetadataSound (reliable (writePage file.image k page)) where
  schedule := rfl
  in_file := h.in_file.writePage
  aligned := aligned_writePage h.aligned k page
  record := by
    rw [pageAt_writePage_of_ne page (by omega : 0 ≠ k)]
    exact h.record

/-- A write of the metadata page. -/
theorem metadataSound_write_record {image : ByteFile UInt8}
    (haligned : pageSize ∣ image.length) {n : ℕ} {head tail : ByteOffset}
    (hpos : 1 ≤ n) (hn : n ≤ pageLimit) (hhead : IsPageLink head)
    (htail : IsPageLink tail) :
    MetadataSound (reliable
      (writePage image 0 (metadataRecord (Int64.ofNat n) head tail))) where
  schedule := rfl
  in_file := inFile_writePage_self 0 _
  aligned := aligned_writePage haligned 0 _
  record :=
    ⟨n, head, tail, pageAt_writePage_self 0 _, hpos, hn, hhead, htail⟩

theorem metadataSound_created {storefd : ℤ}
    (h : createNewBacking storefd [] = (.ok, file)) : MetadataSound file := by
  rw [eq_createdImage h]
  exact metadataSound_write_record (n := 1) (Nat.dvd_zero pageSize) (by decide)
    (by decide) isPageLink_emptyList isPageLink_emptyList

/-! ## One lemma for each call -/

/-- After a page was taken off the list, page 0 is a record exactly when the
next link word is a page link. -/
theorem MetadataSound.recycled (h : MetadataSound file) (j : ℕ) (page : Page)
    (next : ByteOffset) :
    let image' := NickDB.writePage (NickDB.writePage file.image j page) 0
      (popHead (pageAt file.image 0) next)
    (IsPageLink next → MetadataSound (reliable image')) ∧
      (MetadataExact image' → IsPageLink next) := by
  obtain ⟨n, head, tail, hrecord, hpos, hn, hhead, htail⟩ := h.record
  rw [hrecord, popHead_metadataRecord]
  constructor
  · intro hnext
    refine metadataSound_write_record (aligned_writePage h.aligned j page)
      hpos hn hnext ?_
    split
    · exact hnext
    · exact htail
  · rintro ⟨size, head', tail', hrecord', hhead', -⟩
    rw [pageAt_writePage_self] at hrecord'
    have hfield := congrArg freelistHead hrecord'
    simp only [freelistHead_metadataRecord] at hfield
    exact hfield ▸ hhead'

/-- Appending a page. -/
theorem MetadataSound.extended (h : MetadataSound file) {n : ℕ}
    (hn : n < pageLimit) (page : Page) :
    MetadataSound (reliable (NickDB.writePage
      (NickDB.writePage file.image n page) 0
      (setSize (pageAt file.image 0) (Int64.ofNat (n + 1))))) := by
  obtain ⟨m, head, tail, hrecord, -, -, hhead, htail⟩ := h.record
  rw [hrecord, setSize_metadataRecord]
  exact metadataSound_write_record (aligned_writePage h.aligned n page)
    (Nat.le_add_left 1 n) hn hhead htail

/-- Taking the page number `k` off the list. -/
theorem MetadataSound.alloc_head {src : Option Page} {status : Status}
    {index : PageIndex} {k : ℕ} (h : MetadataSound file) (hpos : 1 ≤ k)
    (hk : k < pageLimit) (hin : InFile file.image k)
    (hhead : freelistHead (pageAt file.image 0) = pageOffset k)
    (hblank : src = none → ¬indexToOffset (pageOffset k) < 0)
    (hcall : storeStep store file (.alloc src status index) file') :
    index ≠ 0 ∧
      (IsPageLink (linkWord (pageAt file.image k)) → MetadataSound file') ∧
      (MetadataExact file'.image →
        IsPageLink (linkWord (pageAt file.image k))) := by
  have hindex : Int64.ofNat k ≠ 0 := pageIndex_ne_zero hpos hk
  rw [h.eq_reliable] at hcall
  cases src with
  | some src =>
      have hresult := @allocPage_recycled _ store src k h.in_file hk hin hhead
      obtain ⟨-, rfl, rfl⟩ := alloc_result_unique hresult hcall
      exact ⟨hindex, h.recycled k src _⟩
  | none =>
      obtain ⟨j, hj, hloc⟩ := exists_page_of_not_neg (hblank rfl)
      have hresult := allocPage_recycled_blank store h.in_file hk hin hhead hj
        hloc
      obtain ⟨-, rfl, rfl⟩ := alloc_result_unique hresult hcall
      exact ⟨hindex, h.recycled j blankPage _⟩

/-- `alloc_page` never returns page 0 while page 0 is a record, and leaves a
record exactly when it finds an intact link word. -/
theorem MetadataSound.alloc {src : Option Page} {status : Status}
    {index : PageIndex} (h : MetadataSound file)
    (hcall : storeStep store file (.alloc src status index) file') :
    (status = .ok → index ≠ 0) ∧
      (LinkIntact file (.alloc src status index) → MetadataSound file') ∧
      (MetadataExact file'.image →
        LinkIntact file (.alloc src status index)) := by
  obtain ⟨n, head, tail, hrecord, hpos, hn, hlink, -⟩ := h.record
  have hhead : freelistHead (pageAt file.image 0) = head := by
    rw [hrecord, freelistHead_metadataRecord]
  have hsize : metaSize (pageAt file.image 0) = Int64.ofNat n := by
    rw [hrecord, metaSize_metadataRecord]
  have hintact : LinkIntact file (.alloc src status index) ↔
      (head = emptyList ∨ head < 0 ∨ file.image.length ≤ position head ∨
        (src = none ∧ indexToOffset head < 0) ∨
        IsPageLink (wordAt file.image head)) := by
    simp only [LinkIntact, hhead]
  have hcall' := hcall
  rw [h.eq_reliable] at hcall'
  -- the exits that leave the file as it is
  have hrefused : ∀ code, code ≠ .ok →
      allocPage src (some store) (reliable file.image) =
        (code, errSet, reliable file.image) →
      LinkIntact file (.alloc src status index) →
      (status = .ok → index ≠ 0) ∧
        (LinkIntact file (.alloc src status index) → MetadataSound file') ∧
        (MetadataExact file'.image →
          LinkIntact file (.alloc src status index)) := by
    intro code hcode hresult hguard
    obtain ⟨rfl, -, rfl⟩ := alloc_result_unique hresult hcall'
    exact ⟨fun hok => absurd hok hcode, fun _ => h.eq_reliable ▸ h,
      fun _ => hguard⟩
  by_cases hempty : head = emptyList
  · have hguard := hintact.mpr (Or.inl hempty)
    rcases Nat.lt_or_eq_of_le hn with hlt | rfl
    · have hresult := @allocPage_appended _ store src n h.in_file hlt
        (hhead.trans hempty) hsize
      obtain ⟨-, rfl, rfl⟩ := alloc_result_unique hresult hcall'
      exact ⟨fun _ => pageIndex_ne_zero hpos hlt,
        fun _ => h.extended hlt _, fun _ => hguard⟩
    · apply hrefused .badWrite nofun _ hguard
      exact allocPage_appended_limit store h.in_file (hhead.trans hempty) hsize
  have hne : freelistHead (pageAt file.image 0) ≠ emptyList := hhead ▸ hempty
  by_cases hneg : head < 0
  · apply hrefused .badRead nofun _ (hintact.mpr (Or.inr (Or.inl hneg)))
    exact allocPage_head_neg store h.in_file (hhead ▸ hneg) hne
  obtain ⟨k, hkpos, hk, rfl⟩ := hlink.exists_page hneg
  rw [position_pageOffset hk] at hintact
  rcases inFile_or_past_end h.aligned k with hin | hend
  · by_cases hblank : src = none ∧ indexToOffset (pageOffset k) < 0
    · obtain ⟨rfl, hblankNeg⟩ := hblank
      have hguard := hintact.mpr
        (Or.inr (Or.inr (Or.inr (Or.inl ⟨rfl, hblankNeg⟩))))
      apply hrefused .badWrite nofun _ hguard
      exact allocPage_recycled_blank_neg store h.in_file hk hin hhead hblankNeg
    · have hword := @wordAt_pageOffset file.image k hk
      have hinside : ¬file.image.length ≤ pageSize * k := by
        simp only [InFile, pageSize] at hin ⊢
        omega
      simp only [hempty, hneg, hblank, hinside, false_or, hword] at hintact
      obtain ⟨hindex, hsound, hexact⟩ := h.alloc_head hkpos hk hin hhead
        (fun hsrc hneg => hblank ⟨hsrc, hneg⟩) hcall
      rw [hintact]
      exact ⟨fun _ => hindex, hsound, hexact⟩
  · apply hrefused .badRead nofun _
      (hintact.mpr (Or.inr (Or.inr (Or.inl hend))))
    apply allocPage_head_past_end store h.in_file (hhead ▸ hneg)
    rw [hhead, position_pageOffset hk]
    omega

/-- `free_page` leaves a record, whatever index it is given. -/
theorem MetadataSound.free {status : Status} {index : PageIndex}
    (h : MetadataSound file)
    (hcall : storeStep store file (.free index status) file') :
    MetadataSound file' := by
  obtain ⟨n, head, tail, hrecord, hpos, hn, hhead, htail⟩ := h.record
  have htailWord : freelistTail (pageAt file.image 0) = tail := by
    rw [hrecord, freelistTail_metadataRecord]
  have hsame : MetadataSound (reliable file.image) := h.eq_reliable ▸ h
  rw [h.eq_reliable] at hcall
  -- the list ends at a negative offset, so the first write fails
  have hrefused : indexToOffset index ≠ 0 → tail < 0 →
      ¬(freelistTail (pageAt file.image 0) = -1 ∧
        freelistHead (pageAt file.image 0) = -1) → MetadataSound file' := by
    intro hne htailNeg hnonempty
    obtain ⟨-, rfl⟩ := free_result_unique
      (freePage_tail_neg store h.in_file hne (htailWord ▸ htailNeg)
        hnonempty) hcall
    exact hsame
  rcases indexToOffset_cases index with hzero | hneg | ⟨k, hkpos, hk, hloc⟩
  · obtain ⟨-, rfl⟩ := free_result_unique (freePage_zero store _ hzero) hcall
    exact hsame
  · -- the write of the page fails, but the last free page is relinked before
    have hne : indexToOffset index ≠ 0 := offset_ne_zero_of_neg hneg
    by_cases hempty : freelistTail (pageAt file.image 0) = -1 ∧
        freelistHead (pageAt file.image 0) = -1
    · obtain ⟨-, rfl⟩ := free_result_unique
        (freePage_first_neg store h.in_file hneg hempty) hcall
      exact hsame
    by_cases htailNeg : tail < 0
    · exact hrefused hne htailNeg hempty
    · obtain ⟨t, htpos, ht, rfl⟩ := htail.exists_page htailNeg
      obtain ⟨-, rfl⟩ := free_result_unique
        (freePage_appended_neg store h.in_file hneg ht htailWord) hcall
      exact h.writePage htpos _
  · have hlink : IsPageLink (pageOffset k) := isPageLink_pageOffset hkpos hk
    by_cases hempty : freelistTail (pageAt file.image 0) = -1 ∧
        freelistHead (pageAt file.image 0) = -1
    · obtain ⟨-, rfl⟩ := free_result_unique
        (freePage_first store h.in_file hkpos hk hloc hempty) hcall
      rw [hrecord, setHead_metadataRecord, setTail_metadataRecord]
      exact metadataSound_write_record (aligned_writePage h.aligned k _) hpos
        hn hlink hlink
    by_cases htailNeg : tail < 0
    · have hne : indexToOffset index ≠ 0 := hloc ▸ pageOffset_ne_zero hkpos hk
      exact hrefused hne htailNeg hempty
    · obtain ⟨t, htpos, ht, rfl⟩ := htail.exists_page htailNeg
      obtain ⟨-, rfl⟩ := free_result_unique
        (freePage_appended store h.in_file hkpos hk hloc ht htailWord) hcall
      rw [hrecord, setTail_metadataRecord]
      exact metadataSound_write_record
        (aligned_writePage (aligned_writePage h.aligned t _) k _) hpos hn
        hhead hlink

/-- `get_page` copies out a page other than page 0, or nothing. -/
theorem MetadataSound.get {dest read : Page} {status : Status}
    {index : PageIndex} (h : MetadataSound file)
    (hcall : storeStep store file (.get dest index status read) file') :
    file' = file ∧ if status = .ok
      then ∃ k, 1 ≤ k ∧ read = pageAt file.image k else read = dest := by
  rw [h.eq_reliable] at hcall ⊢
  rcases indexToOffset_cases index with hzero | hneg | ⟨k, hkpos, hk, hloc⟩
  · obtain ⟨rfl, rfl, rfl⟩ := get_result_unique
      (getPage_zero store dest _ hzero) hcall
    exact ⟨rfl, rfl⟩
  · obtain ⟨rfl, rfl, rfl⟩ := get_result_unique
      (getPage_neg store dest _ hneg) hcall
    exact ⟨rfl, rfl⟩
  · rcases inFile_or_past_end h.aligned k with hin | hend
    · obtain ⟨rfl, rfl, rfl⟩ := get_result_unique
        (getPage_page store dest hkpos hk hloc hin) hcall
      exact ⟨rfl, k, hkpos, rfl⟩
    · obtain ⟨rfl, rfl, rfl⟩ := get_result_unique
        (getPage_past_end store dest hkpos hk hloc hend) hcall
      exact ⟨rfl, rfl⟩

/-- `put_page` writes a page other than page 0, or nothing. -/
theorem MetadataSound.put {src : Page} {status : Status} {index : PageIndex}
    (h : MetadataSound file)
    (hcall : storeStep store file (.put src index status) file') :
    MetadataSound file' ∧ pageAt file'.image 0 = pageAt file.image 0 := by
  have hsame : MetadataSound (reliable file.image) := h.eq_reliable ▸ h
  rw [h.eq_reliable] at hcall
  rcases indexToOffset_cases index with hzero | hneg | ⟨k, hkpos, hk, hloc⟩
  · obtain ⟨-, rfl⟩ := put_result_unique (putPage_zero store src _ hzero) hcall
    exact ⟨hsame, rfl⟩
  · obtain ⟨-, rfl⟩ := put_result_unique (putPage_neg store src _ hneg) hcall
    exact ⟨hsame, rfl⟩
  · obtain ⟨-, rfl⟩ := put_result_unique
      (putPage_page store src hkpos hk hloc) hcall
    exact ⟨h.writePage hkpos src,
      pageAt_writePage_of_ne src (by omega : 0 ≠ k)⟩

/-! ## Runs -/

theorem MetadataSound.keeps_iff {event : StoreEvent} (h : MetadataSound file)
    (hcall : storeStep store file event file') :
    KeepsMetadata file event file' ↔ LinkIntact file event := by
  cases event with
  | alloc src status index =>
      obtain ⟨hindex, hsound, hexact⟩ := h.alloc hcall
      exact ⟨fun hkeeps => hexact hkeeps.1,
        fun hintact => ⟨(hsound hintact).exact, hindex⟩⟩
  | free index status =>
      exact iff_of_true ⟨(h.free hcall).exact, trivial⟩ trivial
  | get dest index status read =>
      obtain ⟨rfl, hread⟩ := h.get hcall
      exact iff_of_true ⟨h.exact, rfl, hread⟩ trivial
  | put src index status =>
      obtain ⟨hsound, hpage⟩ := h.put hcall
      exact iff_of_true ⟨hsound.exact, hpage⟩ trivial

theorem MetadataSound.step {event : StoreEvent} (h : MetadataSound file)
    (hcall : storeStep store file event file')
    (hkeeps : KeepsMetadata file event file') : MetadataSound file' := by
  cases event with
  | alloc src status index =>
      obtain ⟨-, hsound, hexact⟩ := h.alloc hcall
      exact hsound (hexact hkeeps.1)
  | free index status => exact h.free hcall
  | get dest index status read => exact (h.get hcall).1 ▸ h
  | put src index status => exact (h.put hcall).1

/-- From a fresh store on, every call of a run keeps the metadata page to
itself exactly when every `alloc_page` of the run finds an intact link word. -/
theorem metadata_never_exposed_iff {storefd : ℤ} {events : List StoreEvent}
    (hcreate : createNewBacking storefd [] = (.ok, file)) :
    MetadataExact file.image ∧
      (Run (Ensuring (storeStep store) KeepsMetadata) file events file' ↔
        Run (Guarded (storeStep store) LinkIntact) file events file') := by
  have hcreated : MetadataSound file := metadataSound_created hcreate
  exact ⟨hcreated.exact, Run.ensuring_iff_guarded
    (fun _ _ _ h hcall => h.keeps_iff hcall)
    (fun _ _ _ h hcall hkeeps => h.step hcall hkeeps) hcreated⟩

/-- A page is allocated, freed, overwritten with zeros and allocated again; the
next allocation hands out page 0. -/
theorem metadata_exposed :
    ∃ file', Run (storeStep ⟨3⟩) (reliable createdImage)
      [.alloc (some blankPage) .ok 1, .free 1 .ok, .put blankPage 1 .ok,
        .alloc (some blankPage) .ok 1, .alloc (some blankPage) .ok 0] file' := by
  obtain ⟨image₁, halloc, hstore₁, -⟩ :=
    storeAt_createdImage.alloc_appended ⟨3⟩ (by decide) (some blankPage)
  obtain ⟨image₂, hfree, hstore₂, -⟩ :=
    hstore₁.free_page (k := 1) ⟨3⟩ (by decide) (by decide)
  have hstore₂' : StoreAt image₂ 2 [1] := hstore₂
  have hput := @putPage_page image₂ ⟨3⟩ blankPage 1 1 (by decide) (by decide)
    (indexToOffset_ofNat 1)
  have hin₃ : ∀ k, k < 2 → InFile (writePage image₂ 1 blankPage) k :=
    fun k hk => (hstore₂'.inFile hk).writePage
  have hhead₃ : freelistHead (pageAt (writePage image₂ 1 blankPage) 0) =
      pageOffset 1 := by
    rw [pageAt_writePage_of_ne _ (by decide), hstore₂'.freelist.head_cons]
  have htaken := @allocPage_recycled (writePage image₂ 1 blankPage) ⟨3⟩
    blankPage 1 (hin₃ 0 (by decide)) (by decide) (hin₃ 1 (by decide)) hhead₃
  rw [pageAt_writePage_self, linkWord_blankPage] at htaken
  have hin₄ : InFile (writePage (writePage (writePage image₂ 1 blankPage) 1
      blankPage) 0 (popHead (pageAt (writePage image₂ 1 blankPage) 0) 0)) 0 :=
    inFile_writePage_self 0 _
  have hexposed := @allocPage_recycled _ ⟨3⟩ blankPage 0 hin₄ (by decide) hin₄
    (by rw [pageAt_writePage_self, freelistHead_popHead, pageOffset_zero])
  exact ⟨_, .cons halloc (.cons hfree (.cons hput
    (.cons htaken (.cons hexposed (.nil _)))))⟩

/-- On a fresh store a page is allocated, freed, and taken off the list by the
next allocation. -/
theorem metadata_kept :
    ∃ file', Run (Ensuring (storeStep ⟨3⟩) KeepsMetadata)
      (reliable createdImage) [.alloc (some blankPage) .ok 1, .free 1 .ok,
        .alloc (some blankPage) .ok 1] file' := by
  have hcreate := createNewBacking_reliable (show (3 : ℤ) ≠ -1 by decide)
  obtain ⟨image₁, image₂, image₃, halloc, hfree, hreuse, hstore₂, -⟩ :=
    storeAt_createdImage.alloc_freed ⟨3⟩ (by decide) blankPage blankPage
  refine ⟨_, (metadata_never_exposed_iff hcreate).2.mpr (.cons ⟨?_, halloc⟩
    (.cons ⟨trivial, hfree⟩ (.cons ⟨?_, hreuse⟩ (.nil _))))⟩
  · exact Or.inl storeAt_createdImage.freelist.head_nil
  · -- the freed page is the last of the list, so its link word is `-1`
    have hword : wordAt image₂ (pageOffset 1) = emptyList := by
      rw [wordAt_pageOffset (by decide)]
      have hnext : nextFree image₂ (pageOffset 1) = linkTarget emptyList :=
        hstore₂.freelist.path.2
      rwa [nextFree_pageOffset (by decide), linkTarget_inj] at hnext
    have hhead : freelistHead (pageAt image₂ 0) = pageOffset 1 :=
      hstore₂.freelist.head_cons
    have hintact : IsPageLink (wordAt image₂
        (freelistHead (pageAt image₂ 0))) := by
      rw [hhead, hword]
      exact isPageLink_emptyList
    exact Or.inr (Or.inr (Or.inr (Or.inr hintact)))

end NickDB

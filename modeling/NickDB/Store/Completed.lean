import NickDB.Store.Wellformed

/-!
# Calls that succeed

Whatever the transfers to come may do, a call of the store that returns
`STATUS_OK` has met none that failed or stopped short: it has done what it does
on a file on which all transfers succeed.  So what is known about calls on such
files holds of every call that succeeds.  For `free_page` this module also says
which transfers have to complete for it to succeed.
-/

namespace NickDB

variable {file file' : StoreFile} {n : ℕ} {store : Option Backing}
  {src : Option Page}

/-! ## Transfers that complete -/

theorem Transfer.count_le {transfer : Transfer} {available k : ℕ}
    (h : transfer.count available = some k) : k ≤ available := by
  cases transfer with
  | full => exact (Option.some.inj h).ge
  | short count =>
      rw [← Option.some.inj h]
      exact Nat.min_le_right count available
  | failed => cases h

/-- A read that has filled the buffer. -/
theorem pread_complete {dest dest' : Fin n → UInt8} {offset : ByteOffset}
    (h : pread file dest offset = ((n : ℤ), dest', file')) :
    pread (reliable file.image) dest offset =
        ((n : ℤ), dest', reliable file.image) ∧ file'.image = file.image := by
  unfold pread at h
  by_cases hneg : offset < 0
  · rw [if_pos hneg] at h
    have hread : (-1 : ℤ) = n := congrArg Prod.fst h
    omega
  simp only [if_neg hneg] at h
  cases hcount : file.nextTransfer.count
      (min n (file.image.length - position offset)) with
  | none =>
      rw [hcount] at h
      have hread : (-1 : ℤ) = n := congrArg Prod.fst h
      omega
  | some k =>
      rw [hcount] at h
      have hread : (k : ℤ) = n := congrArg Prod.fst h
      obtain rfl : k = n := Int.ofNat.inj hread
      cases h
      have hall : min k (file.image.length - position offset) = k := by
        have hle := Transfer.count_le hcount
        omega
      refine ⟨?_, rfl⟩
      simp only [pread, if_neg hneg, StoreFile.nextTransfer, Transfer.count,
        List.headD_nil, hall]
      rfl

/-- A write that has moved all bytes. -/
theorem pwrite_complete {data : Fin n → UInt8} {offset : ByteOffset}
    (h : pwrite file data offset = ((n : ℤ), file')) :
    pwrite (reliable file.image) data offset =
      ((n : ℤ), reliable file'.image) := by
  obtain ⟨hneg, himage⟩ := pwrite_full (congrArg Prod.fst h)
  rw [h] at himage
  rw [pwrite_reliable data hneg, ← himage]

/-! ## Allocations that succeed -/

/-- A page is written, and then the metadata page. -/
theorem writes_complete {page metadata : Page} {offset : ByteOffset}
    {index result : PageIndex}
    (h : (let (write, file) := pwrite file page offset
      if write ≠ pageSize then (Status.badWrite, errSet, file)
      else
        let (metaWrite, file) := pwrite file metadata (indexToOffset 0)
        if metaWrite ≠ pageSize then (Status.badWrite, errSet, file)
        else (Status.ok, index, file)) = (.ok, result, file')) :
    index = result ∧ ∃ image₁, pwrite (reliable file.image) page offset =
        ((pageSize : ℤ), reliable image₁) ∧
      pwrite (reliable image₁) metadata (indexToOffset 0) =
        ((pageSize : ℤ), reliable file'.image) := by
  obtain ⟨⟨write, file₁⟩, hwrite⟩ : ∃ result,
    pwrite file page offset = result := ⟨_, rfl⟩
  simp only [hwrite] at h
  split at h
  next => cases h
  next hwritten =>
    obtain rfl : write = pageSize := not_not.mp hwritten
    obtain ⟨⟨metaWrite, file₂⟩, hmeta⟩ : ∃ result,
      pwrite file₁ metadata (indexToOffset 0) = result := ⟨_, rfl⟩
    simp only [hmeta] at h
    split at h
    next => cases h
    next hmetaWritten =>
      obtain rfl : metaWrite = pageSize := not_not.mp hmetaWritten
      cases h
      exact ⟨rfl, file₁.image, pwrite_complete hwrite,
        pwrite_complete hmeta⟩

theorem allocRecycled_ok {metadata : Page} {index : PageIndex}
    (h : allocRecycled none metadata file = (.ok, index, file')) :
    allocRecycled none metadata (reliable file.image) =
      (.ok, index, reliable file'.image) := by
  obtain ⟨⟨read, nextpage, file₁⟩, hread⟩ : ∃ result,
    pread file (fun _ : Fin 8 => 0) (freelistHead metadata) = result :=
    ⟨_, rfl⟩
  simp only [allocRecycled, hread] at h
  split at h
  next => cases h
  next hcount =>
    obtain rfl : read = (8 : ℕ) := not_not.mp hcount
    obtain ⟨hlink, himage⟩ := pread_complete hread
    obtain ⟨rfl, image₁, hpage, hmeta⟩ := writes_complete h
    rw [himage] at hpage
    simp only [allocRecycled, hlink, hpage, hmeta]
    simp

theorem allocAppended_ok {metadata : Page} {index : PageIndex}
    (h : allocAppended none metadata file = (.ok, index, file')) :
    allocAppended none metadata (reliable file.image) =
      (.ok, index, reliable file'.image) := by
  simp only [allocAppended, ne_eq, not_true_eq_false, if_false] at h
  obtain ⟨rfl, image₁, hpage, hmeta⟩ := writes_complete h
  simp only [allocAppended, hpage, hmeta]
  simp

/-- An allocation without contents that succeeds. -/
theorem allocPage_ok {index : PageIndex}
    (h : allocPage none store file = (.ok, index, file')) :
    allocPage none store (reliable file.image) =
      (.ok, index, reliable file'.image) := by
  unfold allocPage at h
  split at h
  next => cases h
  next hstore =>
    obtain ⟨⟨read, metadata, file₁⟩, hread⟩ : ∃ result,
      pread file blankPage (indexToOffset 0) = result := ⟨_, rfl⟩
    simp only [hread] at h
    split at h
    next => cases h
    next hcount =>
      obtain rfl : read = pageSize := not_not.mp hcount
      obtain ⟨hmetadata, himage⟩ := pread_complete hread
      simp only [allocPage, if_neg hstore, hmetadata]
      split at h
      next hhead =>
        have hrecycled := allocRecycled_ok h
        rw [himage] at hrecycled
        simpa [hhead] using hrecycled
      next hhead =>
        have happended := allocAppended_ok h
        rw [himage] at happended
        simpa [hhead] using happended

/-! ## Freed pages -/

/-- The transfer number `n` of those to come moves a whole page. -/
def Completes (schedule : List Transfer) (n : ℕ) : Prop :=
  (schedule[n]?.getD .full).count pageSize = some pageSize

@[simp] theorem completes_tail {schedule : List Transfer} {n : ℕ} :
    Completes schedule.tail n ↔ Completes schedule (n + 1) := by
  rw [Completes, Completes, List.getElem?_tail]

theorem completes_drop {schedule : List Transfer} {m n : ℕ} :
    Completes (schedule.drop m) n ↔ Completes schedule (m + n) := by
  rw [Completes, Completes, List.getElem?_drop]

variable {image : ByteFile UInt8} {schedule : List Transfer} {k : ℕ}

/-- The next transfer of a page that lies in the file. -/
theorem nextTransfer_count (image : ByteFile UInt8)
    (schedule : List Transfer) :
    (StoreFile.mk image schedule).nextTransfer = schedule[0]?.getD .full := by
  cases schedule with
  | nil => rfl
  | cons transfer rest => rfl

/-- Bytes of the file are read if the transfer moves all of them, and only
then. -/
theorem pread_iff (dest : Fin n → UInt8) (hk : k < pageLimit)
    (hlen : pageSize * k + n ≤ image.length) :
    ∃ read dest', pread ⟨image, schedule⟩ dest (pageOffset k) =
        (read, dest', ⟨image, schedule.tail⟩) ∧
      (read = n ↔ (schedule[0]?.getD Transfer.full).count n = some n) ∧
      (read = n → dest' = image.read (pageSize * k) n) := by
  have hpos := position_pageOffset hk
  have havail : min n (image.length - pageSize * k) = n := by omega
  have hcount : (pread ⟨image, schedule⟩ dest (pageOffset k)).1 = n ↔
      (schedule[0]?.getD Transfer.full).count n = some n := by
    simp only [pread, if_neg (not_pageOffset_neg hk), nextTransfer_count,
      hpos, havail]
    cases hmoved : (schedule[0]?.getD Transfer.full).count n with
    | none =>
        refine iff_of_false (fun hread => ?_) (Option.some_ne_none n).symm
        have hread' : (-1 : ℤ) = n := hread
        omega
    | some c => simp
  have hfile : (pread ⟨image, schedule⟩ dest (pageOffset k)).2.2 =
      ⟨image, schedule.tail⟩ := by
    simp only [pread, if_neg (not_pageOffset_neg hk)]
    split <;> rfl
  refine ⟨_, _, Prod.ext rfl (Prod.ext rfl hfile), hcount, fun hread => ?_⟩
  obtain ⟨-, hbytes⟩ := pread_full hread
  rw [hpos] at hbytes
  exact hbytes

/-- A page is read if the transfer completes, and only then. -/
theorem pread_page_iff (dest : Page) (hk : k < pageLimit)
    (hin : InFile image k) :
    ∃ read dest', pread ⟨image, schedule⟩ dest (pageOffset k) =
        (read, dest', ⟨image, schedule.tail⟩) ∧
      (read = pageSize ↔ Completes schedule 0) ∧
      (read = pageSize → dest' = pageAt image k) := by
  have hlen : pageSize * k + pageSize ≤ image.length := hin
  exact pread_iff dest hk hlen

/-- `get_page` of a page that lies in the file succeeds if the transfer
completes, and only then. -/
theorem getPage_iff (dest : Page) (store : Backing) (hpos : 1 ≤ k)
    (hk : k < pageLimit) (hin : InFile image k) :
    ∃ status dest', getPage dest (some store) ⟨image, schedule⟩
        (Int64.ofNat k) = (status, dest', ⟨image, schedule.tail⟩) ∧
      (status = .ok ↔ Completes schedule 0) := by
  have hne : pageOffset k ≠ 0 := pageOffset_ne_zero hpos hk
  obtain ⟨read, dest', hread, hdone, -⟩ :=
    @pread_page_iff image schedule k dest hk hin
  simp only [getPage, indexToOffset_ofNat, if_neg hne, lseekFails,
    not_pageOffset_neg hk, hread]
  rw [← hdone]
  by_cases hfull : read = pageSize
  · simp [hfull]
  · simp [hfull]

/-- The number of bytes that the transfer number `n` of those to come moves of
a page. -/
def moved (schedule : List Transfer) (n : ℕ) : ℕ :=
  ((schedule[n]?.getD Transfer.full).count pageSize).getD 0

@[simp] theorem moved_tail {n : ℕ} :
    moved schedule.tail n = moved schedule (n + 1) := by
  rw [moved, moved, List.getElem?_tail]

theorem Completes.moved {n : ℕ} (h : Completes schedule n) :
    moved schedule n = pageSize := by
  rw [NickDB.moved, h]
  rfl

/-- The page number `k` after the first `m` bytes of a page have been written
over it. -/
structure Overlaid (image image' : ByteFile UInt8) (k : ℕ) (page : Page)
    (m : ℕ) : Prop where
  length_le : image.length ≤ image'.length
  page : pageAt image' k = Words.overlay (pageAt image k) page m
  others : ∀ j, j ≠ k → pageAt image' j = pageAt image j

/-- Some bytes are written from the start of a page on. -/
theorem overlaid_write (page : Page) (m : ℕ) :
    Overlaid image (image.write (pageSize * k) fun i : Fin (min m pageSize) =>
      page ⟨i, by omega⟩) k page m where
  length_le := image.length_le_length_write _ _
  page := by
    funext i
    rw [pageAt, ByteFile.read_apply, Words.overlay]
    split
    next hi =>
      rw [ByteFile.byte_write_of_mem _ _ _ (by omega)]
      exact congrArg page (Fin.ext (Nat.add_sub_cancel_left _ _))
    next hi =>
      rw [ByteFile.byte_write_of_not_mem _ _ _ (by omega)]
      rfl
  others := by
    intro j hj
    refine image.read_write_of_disjoint _ _ _ ?_
    simp only [pageSize] at *
    omega

/-- A page is written if the transfer completes, and only then; otherwise the
bytes it has moved are. -/
theorem pwrite_page_iff (page : Page) (hk : k < pageLimit) :
    ∃ write image', pwrite ⟨image, schedule⟩ page (pageOffset k) =
        (write, ⟨image', schedule.tail⟩) ∧
      (write = pageSize ↔ Completes schedule 0) ∧
      (write = pageSize → image' = writePage image k page) ∧
      Overlaid image image' k page (moved schedule 0) := by
  have hcount : (pwrite ⟨image, schedule⟩ page (pageOffset k)).1 = pageSize ↔
      Completes schedule 0 := by
    simp only [pwrite, if_neg (not_pageOffset_neg hk), nextTransfer_count,
      Completes]
    cases hmoved : (schedule[0]?.getD Transfer.full).count pageSize with
    | none => simp [pageSize]
    | some c => simp
  have hschedule : (pwrite ⟨image, schedule⟩ page (pageOffset k)).2.schedule =
      schedule.tail := by
    simp only [pwrite, if_neg (not_pageOffset_neg hk)]
    split <;> rfl
  refine ⟨_, _, Prod.ext rfl (StoreFile.ext rfl hschedule), hcount, ?_, ?_⟩
  · intro hwrite
    obtain ⟨-, himage⟩ := pwrite_full hwrite
    rw [position_pageOffset hk, write_eq_writePage] at himage
    exact himage
  · simp only [pwrite, if_neg (not_pageOffset_neg hk), nextTransfer_count,
      position_pageOffset hk, moved]
    cases hmoved : (schedule[0]?.getD Transfer.full).count pageSize with
    | none =>
        exact ⟨Nat.le_refl _, (Words.overlay_zero _ _).symm, fun _ _ => rfl⟩
    | some c =>
        exact overlaid_write page c

/-- The writes of the first free page. -/
theorem freeFirst_iff (metadata : Page) (hk : k < pageLimit) :
    ∃ status file', freeFirst metadata (pageOffset k) ⟨image, schedule⟩ =
        (status, file') ∧
      (status = .ok ↔ Completes schedule 0 ∧ Completes schedule 1) ∧
      (status = .ok → freeFirst metadata (pageOffset k) (reliable image) =
        (.ok, reliable file'.image)) := by
  obtain ⟨write, image₁, hwrite, hdone, himage₁, -⟩ :=
    @pwrite_page_iff image schedule k (linkPage (-1)) hk
  obtain ⟨metaWrite, image₂, hmeta, hmetaDone, himage₂, -⟩ :=
    @pwrite_page_iff image₁ schedule.tail 0
      (setTail (setHead metadata (pageOffset k)) (pageOffset k)) (by decide)
  rw [completes_tail] at hmetaDone
  rw [← hdone, ← hmetaDone]
  simp only [freeFirst, hwrite, hmeta, indexToOffset_zero, pwrite_page _ hk,
    pwrite_metadata]
  by_cases hfull : write = pageSize
  · by_cases hmetaFull : metaWrite = pageSize
    · simp [hfull, hmetaFull, himage₁, himage₂]
    · simp [hfull, hmetaFull]
  · simp [hfull]

/-- The writes of a further free page. -/
theorem freeAppended_iff {metadata : Page} {t : ℕ} (hk : k < pageLimit)
    (ht : t < pageLimit) (htail : freelistTail metadata = pageOffset t) :
    ∃ status file', freeAppended metadata (pageOffset k) ⟨image, schedule⟩ =
        (status, file') ∧
      (status = .ok ↔ Completes schedule 0 ∧ Completes schedule 1 ∧
        Completes schedule 2) ∧
      (status = .ok → freeAppended metadata (pageOffset k) (reliable image) =
        (.ok, reliable file'.image)) := by
  obtain ⟨oldTail, image₁, hold, holdDone, himage₁, -⟩ :=
    @pwrite_page_iff image schedule t (linkPage (pageOffset k)) ht
  obtain ⟨write, image₂, hwrite, hdone, himage₂, -⟩ :=
    @pwrite_page_iff image₁ schedule.tail k (linkPage (-1)) hk
  obtain ⟨metaWrite, image₃, hmeta, hmetaDone, himage₃, -⟩ :=
    @pwrite_page_iff image₂ schedule.tail.tail 0
      (setTail metadata (pageOffset k)) (by decide)
  rw [completes_tail] at hdone
  rw [completes_tail, completes_tail] at hmetaDone
  rw [← holdDone, ← hdone, ← hmetaDone]
  simp only [freeAppended, htail, hold, hwrite, hmeta, indexToOffset_zero,
    pwrite_page _ hk, pwrite_page _ ht, pwrite_metadata]
  by_cases holdFull : oldTail = pageSize
  · by_cases hfull : write = pageSize
    · by_cases hmetaFull : metaWrite = pageSize
      · simp [holdFull, hfull, hmetaFull, himage₁, himage₂, himage₃]
      · simp [holdFull, hfull, hmetaFull]
    · simp [holdFull, hfull]
  · simp [holdFull]

/-- The transfers of a call of `free_page`: the metadata page is read, the last
free page is written if there is one, and the page itself and the metadata page
are written. -/
def FreeCompletes (image : ByteFile UInt8) (schedule : List Transfer) :
    Prop :=
  Completes schedule 0 ∧ Completes schedule 1 ∧ Completes schedule 2 ∧
    (freelistHead (pageAt image 0) ≠ emptyList → Completes schedule 3)

/-- `free_page` of the number of a page succeeds exactly when all its transfers
complete, and does then what it does on a reliable file. -/
theorem StoreAt.freePage_iff {size : ℕ} {free : List ℕ}
    {index : PageIndex} (h : StoreAt image size free) (store : Backing)
    (hpos : 1 ≤ k) (hk : k < pageLimit)
    (hloc : indexToOffset index = pageOffset k) :
    ∃ status file', freePage (some store) ⟨image, schedule⟩ index =
        (status, file') ∧
      (status = .ok ↔ FreeCompletes image schedule) ∧
      (status = .ok → freePage (some store) (reliable image) index =
        (.ok, reliable file'.image)) := by
  have hne : pageOffset k ≠ 0 := pageOffset_ne_zero hpos hk
  obtain ⟨read, metadata, hread, hdone, hmetadata⟩ :=
    @pread_page_iff image schedule 0 blankPage (by decide) h.inFile_zero
  simp only [freePage, hloc, if_neg hne, indexToOffset_zero, hread,
    pread_page blankPage (by decide) h.inFile_zero]
  by_cases hfull : read = pageSize
  · obtain rfl := hmetadata hfull
    have hfirst : Completes schedule 0 := hdone.mp hfull
    rcases List.eq_nil_or_concat free with rfl | ⟨front, t, rfl⟩
    · have hhead := h.freelist.head_nil
      have htail := h.freelist.tail_nil
      obtain ⟨status, file', hcall, hstatus, hsame⟩ :=
        @freeFirst_iff image schedule.tail k (pageAt image 0) hk
      rw [completes_tail, completes_tail] at hstatus
      refine ⟨status, file', ?_, ?_, ?_⟩
      · simp [hfull, htail, hhead, hcall]
      · simp [FreeCompletes, hstatus, hfirst, hhead]
      · intro hok
        simp [htail, hhead, hsame hok]
    · rw [List.concat_eq_append] at h
      have ht : t < pageLimit := h.freelist.limit t (by simp)
      have htail := h.freelist.tail_snoc
      have hnonempty : freelistTail (pageAt image 0) ≠ -1 :=
        htail ▸ pageOffset_ne_emptyList ht
      have hhead : freelistHead (pageAt image 0) ≠ emptyList := by
        cases front with
        | nil =>
            rw [h.freelist.head_cons]
            exact pageOffset_ne_emptyList ht
        | cons i rest =>
            rw [h.freelist.head_cons]
            exact pageOffset_ne_emptyList (h.freelist.limit i (by simp))
      obtain ⟨status, file', hcall, hstatus, hsame⟩ :=
        @freeAppended_iff image schedule.tail k (pageAt image 0) t hk ht htail
      rw [completes_tail, completes_tail, completes_tail] at hstatus
      refine ⟨status, file', ?_, ?_, ?_⟩
      · simp [hfull, hnonempty, hcall]
      · simp [FreeCompletes, hstatus, hfirst, hhead]
      · intro hok
        simp [hnonempty, hsame hok]
  · refine ⟨.badRead, ⟨image, schedule.tail⟩, ?_, ?_, ?_⟩
    · simp [hfull]
    · exact iff_of_false (by decide) fun hall => hfull (hdone.mpr hall.1)
    · intro hok
      cases hok

end NickDB

import NickDB.Store.Model
import Mathlib.Tactic.Ring

/-!
# Page-granular view of the file

Every position the store uses is a multiple of the page size, so a file can be
read as a function from page numbers to pages.  This module relates byte
offsets to page numbers, and states what the system calls do, page by page, on
a file on which all transfers succeed.
-/

namespace NickDB

/-- Byte offsets are 64-bit signed, so page numbers lie below this bound. -/
abbrev pageLimit : ℕ := 2 ^ 51

/-- The byte offset of the page with number `k`. -/
def pageOffset (k : ℕ) : ByteOffset := Int64.ofNat (pageSize * k)

/-! ## Offsets and page numbers -/

theorem toInt_pageOffset {k : ℕ} (hk : k < pageLimit) :
    (pageOffset k).toInt = 4096 * k := by
  have h : pageSize * k < 2 ^ 63 := by
    simp only [pageLimit, pageSize] at *
    omega
  rw [pageOffset, Int64.toInt_ofNat_of_lt h]
  push_cast
  rfl

theorem toInt_pageIndex {k : ℕ} (hk : k < pageLimit) :
    (Int64.ofNat k).toInt = k :=
  Int64.toInt_ofNat_of_lt (by simp only [pageLimit] at hk; omega)

theorem pageIndex_inj {k j : ℕ} (hk : k < pageLimit) (hj : j < pageLimit) :
    Int64.ofNat k = Int64.ofNat j ↔ k = j := by
  refine ⟨fun h => ?_, fun h => h ▸ rfl⟩
  have hint := congrArg Int64.toInt h
  rw [toInt_pageIndex hk, toInt_pageIndex hj] at hint
  omega

theorem toInt_pageCount {n : ℕ} (hn : n ≤ pageLimit) :
    (Int64.ofNat n).toInt = n :=
  Int64.toInt_ofNat_of_lt (by simp only [pageLimit] at hn; omega)

/-- Numbers of pages can be told apart as words, up to the limit. -/
theorem pageCount_inj {n m : ℕ} (hn : n ≤ pageLimit) (hm : m ≤ pageLimit)
    (h : Int64.ofNat n = Int64.ofNat m) : n = m := by
  have hint := congrArg Int64.toInt h
  rw [toInt_pageCount hn, toInt_pageCount hm] at hint
  exact Int.ofNat.inj hint

/-- Numbers of pages compare as words do, also to the number after the limit. -/
theorem pageCount_lt {k n : ℕ} (hk : k < n) (hn : n ≤ pageLimit + 1) :
    Int64.ofNat k < Int64.ofNat n := by
  simp only [pageLimit] at hn
  rw [Int64.lt_iff_toInt_lt, Int64.toInt_ofNat_of_lt (by omega),
    Int64.toInt_ofNat_of_lt (by omega)]
  exact Int.ofNat_lt.mpr hk

theorem pageIndex_ne_zero {k : ℕ} (hpos : 1 ≤ k) (hk : k < pageLimit) :
    Int64.ofNat k ≠ 0 := by
  intro h
  have hzero := (pageIndex_inj hk (by decide : 0 < pageLimit)).mp h
  omega

theorem pageOffset_inj {k j : ℕ} (hk : k < pageLimit) (hj : j < pageLimit) :
    pageOffset k = pageOffset j ↔ k = j := by
  refine ⟨fun h => ?_, fun h => h ▸ rfl⟩
  have hint := congrArg Int64.toInt h
  rw [toInt_pageOffset hk, toInt_pageOffset hj] at hint
  omega

@[simp] theorem pageOffset_zero : pageOffset 0 = 0 := by decide

theorem pageOffset_ne_emptyList {k : ℕ} (hk : k < pageLimit) :
    pageOffset k ≠ emptyList := by
  intro h
  have hint := congrArg Int64.toInt h
  rw [toInt_pageOffset hk, show emptyList.toInt = -1 by decide] at hint
  omega

theorem pageOffset_eq_zero_iff {k : ℕ} (hk : k < pageLimit) :
    pageOffset k = 0 ↔ k = 0 := by
  rw [← pageOffset_zero, pageOffset_inj hk (by decide)]

theorem pageOffset_ne_zero {k : ℕ} (hpos : 1 ≤ k) (hk : k < pageLimit) :
    pageOffset k ≠ 0 := by
  rw [Ne, pageOffset_eq_zero_iff hk]
  omega

theorem offset_ne_zero_of_neg {offset : ByteOffset} (h : offset < 0) :
    offset ≠ 0 := by
  rintro rfl
  exact absurd h (by decide)

theorem not_pageOffset_neg {k : ℕ} (hk : k < pageLimit) :
    ¬pageOffset k < 0 := by
  rw [Int64.lt_iff_toInt_lt, toInt_pageOffset hk, Int64.toInt_zero]
  omega

theorem position_pageOffset {k : ℕ} (hk : k < pageLimit) :
    position (pageOffset k) = pageSize * k := by
  rw [position, Int64.toNatClampNeg, toInt_pageOffset hk]
  simp only [pageSize]
  omega

/-- `index_to_offset` of a page number. -/
@[simp] theorem indexToOffset_ofNat (k : ℕ) :
    indexToOffset (Int64.ofNat k) = pageOffset k := by
  rw [indexToOffset, pageOffset, Int64.ofNat_mul, Int64.mul_comm]
  rfl

@[simp] theorem indexToOffset_zero : indexToOffset 0 = pageOffset 0 := by
  decide

/-- The first page number past the limit has a negative byte offset. -/
theorem pageOffset_limit_neg : pageOffset pageLimit < 0 := by decide

/-- `offset_to_index` undoes `index_to_offset` on page numbers. -/
theorem offsetToIndex_pageOffset {k : ℕ} (hk : k < pageLimit) :
    offsetToIndex (pageOffset k) = Int64.ofNat k := by
  unfold offsetToIndex
  split
  next h0 =>
    rw [pageOffset_eq_zero_iff hk] at h0
    rw [h0]
    rfl
  next =>
    apply Int64.toInt_inj.mp
    rw [Int64.toInt_div_of_ne_right _ _ (by decide), toInt_pageOffset hk,
      toInt_pageIndex hk, show (4096 : Int64).toInt = 4096 by decide]
    exact Int.mul_tdiv_cancel_left _ (by decide)

/-- A product with the page size is a multiple of it, also after wrapping. -/
theorem exists_toInt_mul_pageSize (x : Int64) :
    ∃ j : ℤ, (x * 4096).toInt = 4096 * j := by
  rw [Int64.toInt_mul, show (4096 : Int64).toInt = 4096 by decide,
    Int.bmod_def]
  split
  · refine ⟨x.toInt * 4096 % (2 ^ 64 : ℕ) / 4096, ?_⟩
    push_cast
    omega
  · refine ⟨(x.toInt * 4096 % (2 ^ 64 : ℕ) - (2 ^ 64 : ℕ)) / 4096, ?_⟩
    push_cast
    omega

theorem indexToOffset_ne_emptyList (index : PageIndex) :
    indexToOffset index ≠ emptyList := by
  obtain ⟨j, hj⟩ := exists_toInt_mul_pageSize index
  intro h
  have hint := congrArg Int64.toInt h
  rw [indexToOffset, hj, show emptyList.toInt = -1 by decide] at hint
  omega

/-- Every index leads to the metadata page, to a negative offset or to the
offset of some page number. -/
theorem indexToOffset_cases (index : PageIndex) :
    indexToOffset index = 0 ∨ indexToOffset index < 0 ∨
      ∃ k, 1 ≤ k ∧ k < pageLimit ∧ indexToOffset index = pageOffset k := by
  obtain ⟨j, hj⟩ := exists_toInt_mul_pageSize index
  have hlt := (indexToOffset index).toInt_lt
  change (indexToOffset index).toInt = 4096 * j at hj
  rcases lt_trichotomy j 0 with hneg | rfl | hpos
  · refine Or.inr (Or.inl ?_)
    rw [Int64.lt_iff_toInt_lt, hj, Int64.toInt_zero]
    omega
  · refine Or.inl (Int64.toInt_inj.mp ?_)
    rw [hj, Int64.toInt_zero]
    rfl
  · obtain ⟨k, rfl⟩ := Int.eq_ofNat_of_zero_le hpos.le
    have hk : k < pageLimit := by
      simp only [pageLimit]
      omega
    refine Or.inr (Or.inr ⟨k, by omega, hk, Int64.toInt_inj.mp ?_⟩)
    rw [hj, toInt_pageOffset hk]

/-- An index with an offset that is not negative names a page. -/
theorem exists_page_of_not_neg {index : PageIndex}
    (h : ¬indexToOffset index < 0) :
    ∃ k, k < pageLimit ∧ indexToOffset index = pageOffset k := by
  rcases indexToOffset_cases index with hzero | hneg | ⟨k, -, hk, hloc⟩
  · exact ⟨0, by decide, hzero.trans pageOffset_zero.symm⟩
  · exact absurd hneg h
  · exact ⟨k, hk, hloc⟩

/-! ## Pages of an image -/

/-- The page with number `k`. -/
def pageAt (image : ByteFile UInt8) (k : ℕ) : Page :=
  image.read (pageSize * k) pageSize

/-- The image with the page number `k` overwritten. -/
def writePage (image : ByteFile UInt8) (k : ℕ) (page : Page) :
    ByteFile UInt8 :=
  image.write (pageSize * k) page

variable {image : ByteFile UInt8}

theorem write_eq_writePage (k : ℕ) (page : Page) :
    image.write (pageSize * k) page = writePage image k page := rfl

@[simp] theorem pageAt_writePage_self (k : ℕ) (page : Page) :
    pageAt (writePage image k page) k = page :=
  image.read_write_self _ page

theorem pageAt_writePage_of_ne {k j : ℕ} (page : Page) (hne : j ≠ k) :
    pageAt (writePage image k page) j = pageAt image j := by
  refine image.read_write_of_disjoint _ _ page ?_
  simp only [pageSize]
  omega

@[simp] theorem length_writePage (k : ℕ) (page : Page) :
    (writePage image k page).length =
      max image.length (pageSize * (k + 1)) := by
  rw [writePage, ByteFile.length_write _ _ _ (by decide)]
  simp only [pageSize]
  omega

@[simp] theorem writePage_writePage_self (k : ℕ) (first second : Page) :
    writePage (writePage image k first) k second = writePage image k second :=
  image.write_write_self _ first second

/-- The page number `k` lies inside the file. -/
def InFile (image : ByteFile UInt8) (k : ℕ) : Prop :=
  pageSize * (k + 1) ≤ image.length

/-- Writing a page of the file does not move its end. -/
theorem InFile.length_eq {k : ℕ} (h : InFile image k) (page : Page) :
    (writePage image k page).length = image.length :=
  (length_writePage k page).trans (Nat.max_eq_left h)

theorem InFile.mono {image' : ByteFile UInt8} {k : ℕ} (h : InFile image k)
    (hlen : image.length ≤ image'.length) : InFile image' k :=
  Nat.le_trans h hlen

theorem InFile.writePage {k j : ℕ} {page : Page} (h : InFile image k) :
    InFile (writePage image j page) k :=
  h.mono (image.length_le_length_write _ page)

/-- The link word of a page that lies in the file does. -/
theorem InFile.link_le {k : ℕ} (h : InFile image k) :
    pageSize * k + 8 ≤ image.length := by
  simp only [InFile, pageSize] at *
  omega

theorem inFile_writePage_self (k : ℕ) (page : Page) :
    InFile (writePage image k page) k := by
  rw [InFile, length_writePage]
  exact Nat.le_max_right _ _

/-- In a file of whole pages a page lies inside the file or starts past its
end. -/
theorem inFile_or_past_end (h : pageSize ∣ image.length) (k : ℕ) :
    InFile image k ∨ image.length ≤ pageSize * k := by
  obtain ⟨m, hm⟩ := h
  rcases Nat.lt_or_ge k m with hlt | hge
  · left
    rw [InFile, hm]
    exact Nat.mul_le_mul_left pageSize hlt
  · right
    rw [hm]
    exact Nat.mul_le_mul_left pageSize hge

theorem aligned_writePage (h : pageSize ∣ image.length) (k : ℕ)
    (page : Page) : pageSize ∣ (writePage image k page).length := by
  rw [length_writePage]
  rcases Nat.le_total image.length (pageSize * (k + 1)) with hle | hle
  · rw [Nat.max_eq_right hle]
    exact Nat.dvd_mul_right pageSize (k + 1)
  · rwa [Nat.max_eq_left hle]

/-! ## System calls on a reliable file -/

/-- A transfer of `n` bytes that lie inside the file returns them. -/
theorem pread_reliable {n : ℕ} {offset : ByteOffset} (dest : Fin n → UInt8)
    (hoffset : ¬offset < 0) (hlen : position offset + n ≤ image.length) :
    pread (reliable image) dest offset =
      ((n : ℤ), image.read (position offset) n, reliable image) := by
  have havail : min n (image.length - position offset) = n := by omega
  simp only [pread, if_neg hoffset, StoreFile.nextTransfer, List.headD_nil,
    Transfer.count, havail, StoreFile.advance, List.tail_nil]
  congr 2
  funext i
  simp

/-- A read past the end of the file moves nothing. -/
theorem pread_past_end {n : ℕ} {offset : ByteOffset} (dest : Fin n → UInt8)
    (hoffset : ¬offset < 0) (hend : image.length ≤ position offset) :
    pread (reliable image) dest offset = ((0 : ℤ), dest, reliable image) := by
  have havail : min n (image.length - position offset) = 0 := by omega
  simp only [pread, if_neg hoffset, StoreFile.nextTransfer, List.headD_nil,
    Transfer.count, havail, StoreFile.advance, List.tail_nil]
  simp

theorem pread_page {k : ℕ} (dest : Page) (hk : k < pageLimit)
    (hin : InFile image k) :
    pread (reliable image) dest (pageOffset k) =
      ((pageSize : ℤ), pageAt image k, reliable image) := by
  have hpos := position_pageOffset hk
  rw [pread_reliable dest (not_pageOffset_neg hk), hpos]
  · rfl
  · rw [hpos]
    simp only [InFile, pageSize] at *
    omega

/-- A read of the first eight bytes of a page. -/
theorem pread_link {k : ℕ} (dest : Fin 8 → UInt8) (hk : k < pageLimit)
    (hin : InFile image k) :
    pread (reliable image) dest (pageOffset k) =
      ((8 : ℤ), image.read (pageSize * k) 8, reliable image) := by
  have hpos := position_pageOffset hk
  rw [pread_reliable dest (not_pageOffset_neg hk), hpos]
  · rfl
  · rw [hpos]
    exact hin.link_le

theorem load_read_eq_linkWord (k : ℕ) :
    Words.load (image.read (pageSize * k) 8) 0 (by decide) =
      linkWord (pageAt image k) := rfl

theorem pread_neg {n : ℕ} {offset : ByteOffset} (file : StoreFile)
    (dest : Fin n → UInt8) (hoffset : offset < 0) :
    pread file dest offset = (-1, dest, file) :=
  if_pos hoffset

theorem pwrite_neg {n : ℕ} {offset : ByteOffset} (file : StoreFile)
    (src : Fin n → UInt8) (hoffset : offset < 0) :
    pwrite file src offset = (-1, file) :=
  if_pos hoffset

/-! ## System calls under any schedule -/

theorem pread_image {n : ℕ} (file : StoreFile) (dest : Fin n → UInt8)
    (offset : ByteOffset) : (pread file dest offset).2.2.image = file.image := by
  unfold pread
  split
  · rfl
  · simp only []
    split <;> rfl

/-- A write of all its bytes, under any schedule. -/
theorem pwrite_full {n : ℕ} {file : StoreFile} {src : Fin n → UInt8}
    {offset : ByteOffset} (h : (pwrite file src offset).1 = n) :
    ¬offset < 0 ∧ (pwrite file src offset).2.image =
      file.image.write (position offset) src := by
  have hwrite : ∀ m (hm : m = n), file.image.write (position offset)
      (fun i : Fin m => src ⟨i, hm ▸ i.isLt⟩) =
        file.image.write (position offset) src := by
    rintro m rfl
    rfl
  by_cases hneg : offset < 0
  · rw [pwrite, if_pos hneg] at h
    simp only [] at h
    omega
  · rw [pwrite, if_neg hneg] at h ⊢
    cases hcount : file.nextTransfer.count n with
    | none =>
        rw [hcount] at h
        simp only [] at h
        omega
    | some k =>
        rw [hcount] at h
        obtain rfl : k = n := Int.ofNat.inj h
        exact ⟨hneg, hwrite _ (Nat.min_self k)⟩

/-- A write at an offset that is not negative moves all its bytes. -/
theorem pwrite_reliable {n : ℕ} {offset : ByteOffset} (src : Fin n → UInt8)
    (hoffset : ¬offset < 0) :
    pwrite (reliable image) src offset =
      ((n : ℤ), reliable (image.write (position offset) src)) := by
  have hcount : (pwrite (reliable image) src offset).1 = n := by
    simp only [pwrite, if_neg hoffset, StoreFile.nextTransfer,
      List.headD_nil, Transfer.count]
  have hschedule : (pwrite (reliable image) src offset).2.schedule = [] := by
    simp only [pwrite, if_neg hoffset, StoreFile.nextTransfer,
      List.headD_nil, Transfer.count, StoreFile.advance, List.tail_nil]
  obtain ⟨-, himage⟩ := pwrite_full hcount
  exact Prod.ext hcount (StoreFile.ext himage hschedule)

theorem pwrite_page {k : ℕ} (src : Page) (hk : k < pageLimit) :
    pwrite (reliable image) src (pageOffset k) =
      ((pageSize : ℤ), reliable (writePage image k src)) := by
  rw [pwrite_reliable src (not_pageOffset_neg hk), position_pageOffset hk,
    write_eq_writePage]

/-- A read that reaches past the end of the file stops short. -/
theorem pread_short {n : ℕ} {offset : ByteOffset} (dest : Fin n → UInt8)
    (hn : 0 < n) (hoffset : ¬offset < 0)
    (hend : image.length < position offset + n) :
    (pread (reliable image) dest offset).1 ≠ n ∧
      (pread (reliable image) dest offset).2.2 = reliable image := by
  have havail : min n (image.length - position offset) ≠ n := by omega
  simp only [pread, if_neg hoffset, StoreFile.nextTransfer, List.headD_nil,
    Transfer.count, StoreFile.advance, List.tail_nil]
  exact ⟨fun h => havail (Int.ofNat_inj.mp h), trivial⟩

/-- A read of all its bytes, under any schedule. -/
theorem pread_full {n : ℕ} {file : StoreFile} {dest : Fin n → UInt8}
    {offset : ByteOffset} (h : (pread file dest offset).1 = n) :
    ¬offset < 0 ∧
      (pread file dest offset).2.1 = file.image.read (position offset) n := by
  by_cases hneg : offset < 0
  · rw [pread, if_pos hneg] at h
    simp only [] at h
    omega
  · rw [pread, if_neg hneg] at h ⊢
    cases hcount : file.nextTransfer.count
        (min n (file.image.length - position offset)) with
    | none =>
        simp only [hcount] at h
        omega
    | some k =>
        simp only [hcount] at h ⊢
        obtain rfl : k = n := Int.ofNat.inj h
        refine ⟨hneg, funext fun i => ?_⟩
        rw [if_pos i.isLt]
        rfl

end NickDB

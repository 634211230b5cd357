import NickDB.Store.Calls
import Mathlib.Order.Interval.Set.Defs

/-!
# The range of indices that name pages

A page index is any 64-bit word, and the guards of the calls look at the byte
offset it is multiplied to, not at the index.  This module states which indices
a call serves, which of them share their bytes of the file, and for which the
offset leads back to the index.
-/

namespace NickDB

/-- The bytes of the file a call for the page `index` transfers. -/
def accessed (index : PageIndex) : Set ℕ :=
  Set.Ico (position (indexToOffset index))
    (position (indexToOffset index) + pageSize)

/-- Some call for the page `index` succeeds. -/
inductive Served (index : PageIndex) : Prop
  | get {dest page : Page} {store : Option Backing} {file file' : StoreFile}
      (h : getPage dest store file index = (.ok, page, file'))
  | put {src : Page} {store : Option Backing} {file : StoreFile}
      (h : (putPage src store file index).1 = .ok)
  | free {store : Option Backing} {file : StoreFile}
      (h : (freePage store file index).1 = .ok)

/-- The two indices have a range of bytes of their own each, away from the
metadata page, and come back from their byte offsets. -/
structure Addressed (i j : PageIndex) : Prop where
  apart : ∀ byte ∈ accessed i, byte ∉ accessed j
  metadata_left : ∀ byte ∈ accessed i, byte ∉ accessed metadataIndex
  metadata_right : ∀ byte ∈ accessed j, byte ∉ accessed metadataIndex
  inverse_left : offsetToIndex (indexToOffset i) = i
  inverse_right : offsetToIndex (indexToOffset j) = j

/-- The index is the number of a page whose byte offset is a 64-bit word. -/
def NumbersPage (index : PageIndex) : Prop :=
  1 ≤ index.toInt ∧ index.toInt < pageLimit

variable {index i j : PageIndex}

/-! ## The bytes the calls transfer -/

theorem accessed_of_offset {k : ℕ} (hk : k < pageLimit)
    (hloc : indexToOffset index = pageOffset k) :
    accessed index = Set.Ico (pageSize * k) (pageSize * (k + 1)) := by
  rw [accessed, hloc, position_pageOffset hk, Nat.mul_succ]

/-- A page that was read depends on the bytes of its range only. -/
theorem getPage_of_accessed {dest dest' page page' : Page}
    {store store' : Option Backing} {file file' file₁ file₁' : StoreFile}
    (h : getPage dest store file index = (.ok, page, file₁))
    (h' : getPage dest' store' file' index = (.ok, page', file₁'))
    (hagree : ∀ byte ∈ accessed index,
      file.image.byte byte = file'.image.byte byte) : page = page' := by
  rw [getPage_ok h, getPage_ok h']
  funext m
  apply hagree
  exact ⟨Nat.le_add_right _ _, Nat.add_lt_add_left m.isLt _⟩

/-- A page that was put changes the bytes of its range only. -/
theorem putPage_off_accessed {src : Page} {store : Option Backing}
    {file : StoreFile} (h : (putPage src store file index).1 = .ok) {byte : ℕ}
    (hbyte : byte ∉ accessed index) :
    (putPage src store file index).2.image.byte byte =
      file.image.byte byte := by
  rw [(putPage_ok h).2.2]
  apply ByteFile.byte_write_of_not_mem
  simp only [accessed, Set.mem_Ico, not_and_or, not_le, not_lt] at hbyte
  exact hbyte

/-- The last two writes of `free_page`: the page, then the metadata page. -/
def FreedAt (pageloc : ByteOffset) (image : ByteFile UInt8) : Prop :=
  ¬pageloc < 0 ∧ ∃ (base : ByteFile UInt8) (metadata : Page),
    image = writePage (base.write (position pageloc) (linkPage (-1))) 0 metadata

theorem freedAt_of_pwrite {metadata : Page} {pageloc : ByteOffset}
    {file : StoreFile}
    (hpage : (pwrite file (linkPage (-1)) pageloc).1 = pageSize)
    (hmeta : (pwrite (pwrite file (linkPage (-1)) pageloc).2 metadata
      (indexToOffset 0)).1 = pageSize) :
    FreedAt pageloc (pwrite (pwrite file (linkPage (-1)) pageloc).2 metadata
      (indexToOffset 0)).2.image := by
  obtain ⟨hneg, himage⟩ := pwrite_full hpage
  refine ⟨hneg, file.image, metadata, ?_⟩
  rw [(pwrite_full hmeta).2, himage, indexToOffset_zero,
    position_pageOffset (by decide), write_eq_writePage]

theorem freeFirst_ok {metadata : Page} {pageloc : ByteOffset}
    {file : StoreFile} (h : (freeFirst metadata pageloc file).1 = .ok) :
    FreedAt pageloc (freeFirst metadata pageloc file).2.image := by
  unfold freeFirst at h ⊢
  simp only [] at h ⊢
  split at h
  next => cases h
  next hfree =>
    split at h
    next => cases h
    next hmeta =>
      rw [if_neg hfree, if_neg hmeta]
      exact freedAt_of_pwrite (not_not.mp hfree) (not_not.mp hmeta)

theorem freeAppended_ok {metadata : Page} {pageloc : ByteOffset}
    {file : StoreFile} (h : (freeAppended metadata pageloc file).1 = .ok) :
    FreedAt pageloc (freeAppended metadata pageloc file).2.image := by
  unfold freeAppended at h ⊢
  simp only [] at h ⊢
  split at h
  next => cases h
  next htail =>
    split at h
    next => cases h
    next hfree =>
      split at h
      next => cases h
      next hmeta =>
        rw [if_neg htail, if_neg hfree, if_neg hmeta]
        exact freedAt_of_pwrite (not_not.mp hfree) (not_not.mp hmeta)

/-- A page that was freed lies behind the metadata page. -/
theorem freePage_ok {store : Option Backing} {file : StoreFile}
    (h : (freePage store file index).1 = .ok) :
    indexToOffset index ≠ 0 ∧
      FreedAt (indexToOffset index) (freePage store file index).2.image := by
  unfold freePage at h ⊢
  simp only [] at h ⊢
  split at h
  next => cases h
  next hzero =>
    split at h
    next => cases h
    next hstore =>
      split at h
      next => cases h
      next hread =>
        rw [if_neg hzero, if_neg hstore, if_neg hread]
        split at h
        next hempty =>
          rw [if_pos hempty]
          exact ⟨hzero, freeFirst_ok h⟩
        next hnonempty =>
          rw [if_neg hnonempty]
          exact ⟨hzero, freeAppended_ok h⟩

/-! ## The indices the calls serve -/

/-- A call succeeds for an index exactly when its offset names a page behind
the metadata page. -/
theorem served_iff : Served index ↔
    ∃ k, 1 ≤ k ∧ k < pageLimit ∧ indexToOffset index = pageOffset k := by
  constructor
  · intro h
    obtain ⟨hzero, hneg⟩ :
        indexToOffset index ≠ 0 ∧ ¬indexToOffset index < 0 := by
      cases h with
      | get h => exact getPage_ok_offset h
      | put h => exact ⟨(putPage_ok h).1, (putPage_ok h).2.1⟩
      | free h => exact ⟨(freePage_ok h).1, (freePage_ok h).2.1⟩
    rcases indexToOffset_cases index with hloc | hloc | hpage
    · exact absurd hloc hzero
    · exact absurd hloc hneg
    · exact hpage
  · rintro ⟨k, hpos, hk, hloc⟩
    have hput : (putPage blankPage (some ⟨3⟩) (reliable ByteFile.empty)
        index).1 = .ok := by
      rw [putPage_page ⟨3⟩ blankPage hpos hk hloc]
    exact .put hput

/-- A freed page is blank up to its link word, so the range is the one that is
read and put under the same index. -/
theorem freePage_read_accessed {store : Option Backing} {file : StoreFile}
    (h : (freePage store file index).1 = .ok) :
    (freePage store file index).2.image.read
      (position (indexToOffset index)) pageSize = linkPage (-1) := by
  obtain ⟨k, hpos, hk, hloc⟩ := served_iff.mp (.free h)
  obtain ⟨-, -, base, metadata, himage⟩ := freePage_ok h
  rw [himage, hloc, position_pageOffset hk, write_eq_writePage]
  change pageAt _ k = _
  rw [pageAt_writePage_of_ne _ (Nat.ne_of_gt hpos), pageAt_writePage_self]

theorem accessed_metadata : accessed metadataIndex = Set.Ico 0 pageSize := by
  rw [accessed_of_offset (by decide) indexToOffset_zero]
  rfl

/-- No index that is served reaches the metadata page. -/
theorem Served.not_mem_metadata (h : Served index) :
    ∀ byte ∈ accessed index, byte ∉ accessed metadataIndex := by
  obtain ⟨k, hpos, hk, hloc⟩ := served_iff.mp h
  rw [accessed_of_offset hk hloc, accessed_metadata]
  intro byte hbyte hmeta
  have hle : pageSize * 1 ≤ pageSize * k := Nat.mul_le_mul_left pageSize hpos
  have hlt : byte < pageSize := hmeta.2
  have hge : pageSize * k ≤ byte := hbyte.1
  omega

/-- Two indices that are served have bytes in common exactly when they have
the same offset. -/
theorem Served.apart_iff (hi : Served i) (hj : Served j) :
    (∀ byte ∈ accessed i, byte ∉ accessed j) ↔
      indexToOffset i ≠ indexToOffset j := by
  obtain ⟨k, -, hk, hiloc⟩ := served_iff.mp hi
  obtain ⟨l, -, hl, hjloc⟩ := served_iff.mp hj
  rw [accessed_of_offset hk hiloc, accessed_of_offset hl hjloc, hiloc, hjloc,
    Ne, pageOffset_inj hk hl]
  constructor
  · rintro hapart rfl
    have hstart : pageSize * k ∈
        Set.Ico (pageSize * k) (pageSize * (k + 1)) :=
      ⟨Nat.le_refl _, Nat.mul_lt_mul_of_pos_left (Nat.lt_succ_self k)
        (by decide)⟩
    exact hapart _ hstart hstart
  · intro hne byte hk hl
    simp only [Set.mem_Ico, pageSize] at hk hl
    omega

/-- The product with the page size forgets the twelve highest bits. -/
theorem indexToOffset_eq_iff :
    indexToOffset i = indexToOffset j ↔ 2 ^ 52 ∣ i.toInt - j.toInt := by
  rw [← Int64.toInt_inj, indexToOffset, indexToOffset, Int64.toInt_mul,
    Int64.toInt_mul, show (4096 : Int64).toInt = 4096 by decide]
  constructor
  · intro h
    have hmod := congrArg (· % ((2 ^ 64 : ℕ) : ℤ)) h
    simp only [Int.bmod_emod] at hmod
    omega
  · intro h
    have hmod : i.toInt * 4096 % ((2 ^ 64 : ℕ) : ℤ) =
        j.toInt * 4096 % ((2 ^ 64 : ℕ) : ℤ) := by omega
    rw [← Int.emod_bmod, hmod, Int.emod_bmod]

/-! ## The indices that come back -/

theorem numbersPage_iff :
    NumbersPage index ↔
      ∃ k, 1 ≤ k ∧ k < pageLimit ∧ index = Int64.ofNat k := by
  constructor
  · rintro ⟨hpos, hlimit⟩
    obtain ⟨k, hk⟩ := Int.eq_ofNat_of_zero_le (le_trans (by decide) hpos)
    rw [hk] at hpos hlimit
    have hlt : k < pageLimit := Int.ofNat_lt.mp hlimit
    refine ⟨k, Int.ofNat_le.mp hpos, hlt, Int64.toInt_inj.mp ?_⟩
    rw [hk, toInt_pageIndex hlt]
  · rintro ⟨k, hpos, hk, rfl⟩
    rw [NumbersPage, toInt_pageIndex hk]
    exact ⟨Int.ofNat_le.mpr hpos, Int.ofNat_lt.mpr hk⟩

/-- An index that is served comes back from its offset exactly when it is the
number of a page. -/
theorem Served.inverse_iff (h : Served index) :
    offsetToIndex (indexToOffset index) = index ↔ NumbersPage index := by
  obtain ⟨k, hpos, hk, hloc⟩ := served_iff.mp h
  rw [hloc, offsetToIndex_pageOffset hk, numbersPage_iff]
  constructor
  · intro hback
    exact ⟨k, hpos, hk, hback.symm⟩
  · rintro ⟨l, -, hl, rfl⟩
    rw [indexToOffset_ofNat, pageOffset_inj hl hk] at hloc
    rw [hloc]

/-- Two different indices that are served are addressed as two pages exactly
when both are numbers of pages. -/
theorem addressed_iff (hne : i ≠ j) (hi : Served i) (hj : Served j) :
    Addressed i j ↔ NumbersPage i ∧ NumbersPage j := by
  constructor
  · intro h
    exact ⟨hi.inverse_iff.mp h.inverse_left, hj.inverse_iff.mp h.inverse_right⟩
  · rintro ⟨hileft, hjright⟩
    have hiback := hi.inverse_iff.mpr hileft
    have hjback := hj.inverse_iff.mpr hjright
    have hoffset : indexToOffset i ≠ indexToOffset j := by
      intro hsame
      apply hne
      rw [← hiback, hsame, hjback]
    exact ⟨(hi.apart_iff hj).mpr hoffset, hi.not_mem_metadata,
      hj.not_mem_metadata, hiback, hjback⟩

/-- Pages 1 and 2 have bytes of their own. -/
theorem addressed_one_two : Addressed 1 2 := by
  have hone : Served 1 := served_iff.mpr ⟨1, by decide, by decide, by decide⟩
  have htwo : Served 2 := served_iff.mpr ⟨2, by decide, by decide, by decide⟩
  apply (addressed_iff (by decide) hone htwo).mpr
  constructor
  · exact numbersPage_iff.mpr ⟨1, by decide, by decide, rfl⟩
  · exact numbersPage_iff.mpr ⟨2, by decide, by decide, rfl⟩

/-- The index `2 ^ 52 + 1` leads to page 1. -/
theorem not_addressed_wrapped :
    ¬∀ i j : PageIndex, i ≠ j → Served i → Served j → Addressed i j := by
  intro h
  have hone : Served 1 := served_iff.mpr ⟨1, by decide, by decide, by decide⟩
  have hwrapped : Served 4503599627370497 :=
    served_iff.mpr ⟨1, by decide, by decide, by decide⟩
  have hback := (h 1 4503599627370497 (by decide) hone hwrapped).inverse_right
  exact absurd hback (by decide)

end NickDB

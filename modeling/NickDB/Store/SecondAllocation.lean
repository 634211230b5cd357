import NickDB.Store.Allocated
import NickDB.Store.BlankAllocation

/-!
# Two allocations in a row

Once a page is allocated, a second call of `alloc_page` does not bring back the
pages that were allocated before the first one, however it ends.  There is one
exception: when the second call writes only some bytes of its metadata page, the
bytes of two heads of the list may happen to make up the head before both.
-/

namespace NickDB

open Linked

variable {image image₁ : ByteFile UInt8} {schedule schedule₁ : List Transfer}
  {size j k m : ℕ} {free rest : List ℕ} {store : Backing} {status : Status}
  {index : PageIndex} {file' : StoreFile}

/-- The zeros of an allocation that takes the page number `k` go to the page
number `j`. -/
def ZerosGo (k j : ℕ) : Prop :=
  j < pageLimit ∧ indexToOffset (pageOffset k) = pageOffset j

/-- Both allocations take a free page, their zeros go to no page that counts,
and the bytes of the second metadata page that are written over the first one
make up the words there were before both. -/
def SecondRestores (image : ByteFile UInt8) (schedule : List Transfer) :
    List ℕ → Prop
  | k :: i :: rest =>
      Completes schedule 0 ∧ LinkCompletes schedule 1 ∧
      Completes schedule 2 ∧ (∃ j, ZerosGo k j ∧ j ∉ k :: i :: rest) ∧
      (∃ j, ZerosGo i j ∧ j ≠ 0 ∧ j ∉ k :: i :: rest) ∧
      SameWords (pageAt image 0) (Words.overlay
        (popHead (pageAt image 0) (linkWord (pageAt image k)))
        (popHead (popHead (pageAt image 0) (linkWord (pageAt image k)))
          (linkWord (pageAt image i))) (moved schedule 3))
  | _ => False

theorem ZerosGo.unique {i : ℕ} (h : ZerosGo k j) (h' : ZerosGo k i) :
    j = i :=
  (pageOffset_inj h.1 h'.1).mp (h.2.symm.trans h'.2)

/-! ## Pages of zeros -/

/-- Zeros that are written over a page of zeros do not show. -/
theorem pwrite_zeros_stay (file : StoreFile) (offset : ByteOffset)
    (hblank : pageAt file.image j = blankPage) :
    pageAt (pwrite file blankPage offset).2.image j = blankPage := by
  unfold pwrite
  split
  · exact hblank
  simp only []
  split
  · exact hblank
  · funext i
    have hbyte : file.image.byte (pageSize * j + i) = 0 := congrFun hblank i
    rw [pageAt, ByteFile.read_apply, ByteFile.write]
    simp only [hbyte]
    split <;> rfl

/-- A write to page 0 leaves the other pages. -/
theorem pwrite_first_page (file : StoreFile) (page : Page) (hj : j ≠ 0) :
    pageAt (pwrite file page (indexToOffset 0)).2.image j =
      pageAt file.image j := by
  obtain ⟨image, schedule⟩ := file
  obtain ⟨write, image', hwrite, -, -, hover⟩ :=
    @pwrite_page_iff image schedule 0 page (by decide)
  rw [indexToOffset_zero, hwrite]
  exact hover.others j hj

/-- The two writes of an allocation. -/
theorem writes_zeros_stay {file : StoreFile} {offset : ByteOffset}
    {metadata : Page} {result : PageIndex} (hj : j ≠ 0)
    (hblank : pageAt file.image j = blankPage)
    (hcall : (let (write, file) := pwrite file blankPage offset
      if write ≠ pageSize then (Status.badWrite, errSet, file)
      else
        let (metaWrite, file) := pwrite file metadata (indexToOffset 0)
        if metaWrite ≠ pageSize then (Status.badWrite, errSet, file)
        else (Status.ok, result, file)) = (status, index, file')) :
    pageAt file'.image j = blankPage := by
  have hzeros := pwrite_zeros_stay file offset hblank
  obtain ⟨⟨write, file₁⟩, hwrite⟩ : ∃ result,
    pwrite file blankPage offset = result := ⟨_, rfl⟩
  have hmeta := pwrite_first_page file₁ metadata hj
  obtain ⟨⟨metaWrite, file₂⟩, hmetaWrite⟩ : ∃ result,
    pwrite file₁ metadata (indexToOffset 0) = result := ⟨_, rfl⟩
  rw [hwrite] at hzeros
  rw [hmetaWrite, hzeros] at hmeta
  simp only [hwrite, hmetaWrite] at hcall
  split at hcall
  next =>
    cases hcall
    exact hzeros
  next =>
    split at hcall
    next =>
      cases hcall
      exact hmeta
    next =>
      cases hcall
      exact hmeta

/-- An allocation leaves a page of zeros what it is, whatever the file holds and
wherever its zeros go. -/
theorem allocPage_zeros_stay {store : Option Backing} {file : StoreFile}
    (hj : j ≠ 0) (hblank : pageAt file.image j = blankPage)
    (hcall : allocPage none store file = (status, index, file')) :
    pageAt file'.image j = blankPage := by
  have himage := pread_image file blankPage (indexToOffset 0)
  obtain ⟨⟨read, metadata, file₁⟩, hread⟩ : ∃ result,
    pread file blankPage (indexToOffset 0) = result := ⟨_, rfl⟩
  rw [hread] at himage
  have himage : file₁.image = file.image := himage
  rw [← himage] at hblank
  simp only [allocPage, hread] at hcall
  split at hcall
  next =>
    cases hcall
    rwa [← himage]
  next =>
    split at hcall
    next =>
      cases hcall
      exact hblank
    next =>
      split at hcall
      next =>
        have himage₂ := pread_image file₁ (fun _ : Fin 8 => 0)
          (freelistHead metadata)
        obtain ⟨⟨link, next, file₂⟩, hlink⟩ : ∃ result,
          pread file₁ (fun _ : Fin 8 => 0) (freelistHead metadata) = result :=
          ⟨_, rfl⟩
        rw [hlink] at himage₂
        have himage₂ : file₂.image = file₁.image := himage₂
        rw [← himage₂] at hblank
        simp only [allocRecycled, hlink] at hcall
        split at hcall
        next =>
          cases hcall
          exact hblank
        next => exact writes_zeros_stay hj hblank hcall
      next =>
        simp only [allocAppended, ne_eq, not_true_eq_false, if_false] at hcall
        exact writes_zeros_stay hj hblank hcall

/-! ## A list that has become empty -/

theorem pageAt_misplacedBlank_zero :
    pageAt (misplacedBlank image k j) 0 =
      popHead (pageAt image 0) (linkWord (pageAt image k)) :=
  pageAt_writePage_self _ _

/-- A store without free pages does not get any by an allocation. -/
theorem StoreAt.head_of_alloc (h : StoreAt image size [])
    (hcall : AllocAttempt image schedule size [] status file') :
    freelistHead (pageAt file'.image 0) = emptyList := by
  have hsize : 0 ≠ size := by
    have hpos := h.size_pos
    omega
  rw [← h.freelist.head_nil]
  cases hcall with
  | unread hmeta => rfl
  | limit hmeta hneg => rfl
  | blank hmeta hlimit hzeros hover => rw [hover.others 0 hsize]
  | counted hmeta hlimit hzeros hwrite hover =>
      rw [hover.page, pageAt_writePage_of_ne _ hsize]
      exact Words.load_overlay_store _ _ _ (by decide)
  | appended hmeta hlimit hzeros hwrite =>
      rw [pageAt_writePage_self, freelistHead_setSize]

/-- The low byte of the size, when some bytes of another one are written over
it. -/
theorem metaSize_overlay_mod (metadata : Page) (count : PageIndex) :
    (metaSize (Words.overlay metadata (setSize metadata count)
        m)).toUInt64.toNat % 256 =
      if 0 < m then count.toUInt64.toNat % 256
      else (metaSize metadata).toUInt64.toNat % 256 := by
  have hcount : metaSize (setSize metadata count) = count :=
    metaSize_setSize metadata count
  conv_rhs => rw [← hcount]
  simp only [metaSize, Words.toNat_load_mod, Words.overlay]
  split <;> rfl

/-- A store that has grown by a page does not shrink by an allocation. -/
theorem StoreAt.not_same_of_grown (h : StoreAt image (size + 1) [])
    (hcall : AllocAttempt image schedule (size + 1) [] status file') :
    ¬SameAllocated file'.image size [] := by
  rintro ⟨free', h', -⟩
  have hlimit := h.size_le
  simp only [pageLimit] at hlimit
  have hcount := h'.meta_size
  have hsame : metaSize (pageAt file'.image 0) ≠
      metaSize (pageAt image 0) := by
    rw [hcount, h.meta_size]
    intro heq
    have hsize := pageCount_inj h'.size_le h.size_le heq
    omega
  have hnext : Int64.ofNat (size + 1) + 1 = Int64.ofNat (size + 2) :=
    (Int64.ofNat_add (size + 1) 1).symm
  have hnat : ∀ v < 2 ^ 64, (Int64.ofNat v).toUInt64.toNat = v :=
    fun v hv => Nat.mod_eq_of_lt hv
  cases hcall with
  | unread hmeta => exact hsame rfl
  | limit hmeta hneg => exact hsame rfl
  | blank hmeta hsize hzeros hover =>
      rw [hover.others 0 (by omega)] at hsame
      exact hsame rfl
  | counted hmeta hsize hzeros hwrite hover =>
      have hbyte := congrArg (fun count => count.toUInt64.toNat % 256) hcount
      simp only [hover.page, metaSize_overlay_mod, hnext,
        pageAt_writePage_of_ne _ (by omega : 0 ≠ size + 1), h.meta_size,
        hnat size (by omega), hnat (size + 1) (by omega),
        hnat (size + 2) (by omega)] at hbyte
      split at hbyte <;> omega
  | appended hmeta hsize hzeros hwrite =>
      rw [pageAt_writePage_self, metaSize_setSize, h.meta_size, hnext] at hcount
      have hwords := congrArg (fun count => count.toUInt64.toNat) hcount
      simp only [hnat size (by omega), hnat (size + 2) (by omega)] at hwords
      omega

/-! ## A list that is left over -/

theorem Overlaid.refl (image : ByteFile UInt8) (j : ℕ) (page : Page) :
    Overlaid image image j page 0 :=
  ⟨Nat.le_refl _, (Words.overlay_zero _ _).symm, fun _ _ => rfl⟩

/-- Some zeros do not bring back a page that was taken off the list: its link
still leads to the head. -/
theorem StoreAt.not_same_of_zeros (h : StoreAt image size (k :: rest))
    (h₁ : StoreAt image₁ size rest)
    (hhead : freelistHead (pageAt image₁ 0) = linkWord (pageAt image k))
    (hsame : pageAt image₁ k = pageAt image k) {image₂ : ByteFile UInt8}
    (hover : Overlaid image₁ image₂ j blankPage m) :
    ¬SameAllocated image₂ size (k :: rest) := by
  rintro ⟨free', h', hmem⟩
  have hk : k ∈ k :: rest := List.mem_cons_self
  have hhead' : freelistHead (pageAt image₂ 0) = linkWord (pageAt image k) := by
    rw [← hhead]
    by_cases hj : 0 = j
    · subst hj
      rw [hover.page]
      rcases Nat.lt_or_ge m 8 with hm | hm
      · exact Words.load_overlay_old _ _ _ (Nat.le_of_lt hm)
      · -- the zeros cover the size
        have hcount := h'.meta_size
        rw [hover.page, metaSize, Words.load_overlay_new _ _ _ hm] at hcount
        have hzero : Int64.ofNat 0 = Int64.ofNat size :=
          (Words.load_zero 0 (by decide)).symm.trans hcount
        have hsize := pageCount_inj (Nat.zero_le _) h.size_le hzero
        have hpos := h.size_pos
        omega
    · rw [hover.others 0 hj]
  by_cases hkj : k = j
  · have hne : freelistHead (pageAt image₂ 0) ≠ pageOffset k := by
      rw [hhead', ← h.freelist.head_cons]
      exact h.linkWord_ne_head hk
    obtain ⟨i, hi, hik, hlink⟩ := h'.exists_prev ((hmem k).mpr hk) hne
    have hrest : i ∈ rest :=
      (List.mem_cons.mp ((hmem i).mp hi)).resolve_left hik
    rw [hover.others i (hkj ▸ hik)] at hlink
    apply (List.nodup_cons.mp h.freelist.nodup).1
    exact h₁.link_mem hrest (h.freelist.limit k hk) hlink
  · apply h'.linkWord_ne_head ((hmem k).mpr hk)
    rw [hhead', hover.others k hkj, hsame]

/-- The words are restored only by a second allocation that fails. -/
theorem StoreAt.second_failed {i : ℕ}
    (h : StoreAt image size (k :: i :: rest))
    (hcall : AllocAttempt (misplacedBlank image k j) schedule size (i :: rest)
      status file')
    (hrestores : SecondRestores image schedule (k :: i :: rest)) :
    status ≠ .ok := by
  rintro rfl
  cases hcall with
  | recycled hmeta hlink hlimit hblank hzeros hwrite =>
      obtain ⟨-, -, -, -, -, hwords⟩ := hrestores
      rw [hwrite.moved, Words.overlay_all] at hwords
      apply h.linkWord_ne_head (List.mem_cons_of_mem k List.mem_cons_self)
      rw [← hwords.head, freelistHead_popHead]

/-- Two allocations that take two free pages do not leave the same pages
allocated. -/
theorem StoreAt.not_same_of_both {i p : ℕ}
    (h : StoreAt image size (k :: i :: rest))
    (hsame : ∀ q ∈ k :: i :: rest,
      pageAt (misplacedBlank image k j) q = pageAt image q) :
    ¬SameAllocated (misplacedBlank (misplacedBlank image k j) i p) size
      (k :: i :: rest) := by
  have hi : i ∈ k :: i :: rest := List.mem_cons_of_mem k List.mem_cons_self
  rintro ⟨free', h', hmem⟩
  have hwords := h.sameWords_of_zero h' hmem fun q hq => by
    have hq0 := h.freelist.ne_zero hq
    by_cases hqp : q = p
    · subst hqp
      rw [misplacedBlank, pageAt_writePage_of_ne _ hq0,
        pageAt_writePage_self, linkWord_blankPage]
      exact Or.inr rfl
    · rw [pageAt_misplacedBlank_of_ne hq0 hqp, hsame q hq]
      exact Or.inl rfl
  apply h.linkWord_ne_head hi
  rw [← hwords.head, pageAt_misplacedBlank_zero, freelistHead_popHead,
    hsame i hi]

/-- The second allocation on a list that the first one has left well-formed. -/
theorem StoreAt.second_attempt_iff {i : ℕ}
    (h : StoreAt image size (k :: i :: rest)) (hgo : ZerosGo k j)
    (hj : j ∉ i :: rest)
    (hcall : AllocAttempt (misplacedBlank image k j) schedule size (i :: rest)
      status file') :
    SameAllocated file'.image size (k :: i :: rest) ↔
      SecondRestores image schedule (k :: i :: rest) := by
  have hk : k ∈ k :: i :: rest := List.mem_cons_self
  have hi : i ∈ k :: i :: rest := List.mem_cons_of_mem k List.mem_cons_self
  have h₁ := h.misplaced hj
  have hjk : j ≠ k := by
    rintro rfl
    exact indexToOffset_pageOffset_ne (h.freelist.inFile j hk).1 hgo.1 hgo.2
  have hjfree : j ∉ k :: i :: rest := by
    rw [List.mem_cons, not_or]
    exact ⟨hjk, hj⟩
  have hsame : ∀ p ∈ k :: i :: rest,
      pageAt (misplacedBlank image k j) p = pageAt image p := by
    intro p hp
    exact pageAt_misplacedBlank_of_ne (h.freelist.ne_zero hp)
      fun heq => hjfree (heq ▸ hp)
  have hmetadata := @pageAt_misplacedBlank_zero image j k
  have hhead : freelistHead (pageAt (misplacedBlank image k j) 0) =
      linkWord (pageAt image k) := by
    rw [hmetadata, freelistHead_popHead]
  have hlost : ¬SameAllocated (misplacedBlank image k j) size
      (k :: i :: rest) :=
    h.not_same_of_zeros h₁ hhead (hsame k hk) (Overlaid.refl _ 0 _)
  have hfailed := h.second_failed hcall
  cases hcall with
  | unread hmeta => exact iff_of_false hlost fun hall => hmeta hall.1
  | unlinked hmeta hlink => exact iff_of_false hlost fun hall => hlink hall.2.1
  | negative hmeta hlink hneg =>
      refine iff_of_false hlost ?_
      rintro ⟨-, -, -, -, ⟨j₂, hgo₂, -⟩, -⟩
      rw [hgo₂.2] at hneg
      exact not_pageOffset_neg hgo₂.1 hneg
  | zeros hmeta hlink hlimit hblank hzeros hover =>
      exact iff_of_false
        (h.not_same_of_zeros h₁ hhead (hsame k hk) hover)
        fun hall => hzeros hall.2.2.1
  | @popped k₂ j₂ rest₂ image₂ hmeta hlink hlimit hblank hzeros hwrite hover =>
      rw [hmetadata, hsame i hi] at hover
      have hlen : image.length ≤ (misplacedBlank image k j).length :=
        length_le_two_writes j _ _
      rw [h.rewritten_iff hlen hsame _ hover, hmetadata]
      · constructor
        · rintro ⟨hj₂, hfree, hwords⟩
          exact ⟨hmeta, hlink, hzeros, ⟨j, hgo, hjfree⟩,
            ⟨j₂, ⟨hlimit, hblank⟩, hj₂, hfree⟩, hwords⟩
        · rintro ⟨-, -, -, -, ⟨j₃, hgo₃, hj₃, hfree⟩, hwords⟩
          obtain rfl := hgo₃.unique ⟨hlimit, hblank⟩
          exact ⟨hj₃, hfree, hwords⟩
      · rw [freelistHead_popHead]
        exact h.linkWord_ne_head hi
  | recycled hmeta hlink hlimit hblank hzeros hwrite =>
      exact iff_of_false (h.not_same_of_both hsame)
        fun hrestores => hfailed hrestores rfl

/-- Where the zeros of the first allocation go to a free page, its link word is
lost for good. -/
theorem StoreAt.second_not_same_of_hit {index₂ : PageIndex}
    {schedule₂ : List Transfer} (h : StoreAt image size (k :: rest))
    (hgo : ZerosGo k j) (hhit : j ∈ rest)
    (hsecond : allocPage none (some store) ⟨misplacedBlank image k j,
      schedule₂⟩ = (status, index₂, file')) :
    ¬SameAllocated file'.image size (k :: rest) ∧
      ¬SecondRestores image schedule₂ (k :: rest) := by
  have hmem : j ∈ k :: rest := List.mem_cons_of_mem k hhit
  have hj0 : j ≠ 0 := h.freelist.ne_zero hmem
  constructor
  · have hzeros : pageAt (misplacedBlank image k j) j = blankPage := by
      rw [misplacedBlank, pageAt_writePage_of_ne _ hj0, pageAt_writePage_self]
    have hstay := allocPage_zeros_stay hj0 hzeros hsecond
    rintro ⟨free', h', hfree⟩
    apply h'.linkWord_ne_zero ((hfree j).mpr hmem)
    rw [hstay, linkWord_blankPage]
  · cases rest with
    | nil => exact fun hall => hall
    | cons i rest =>
        rintro ⟨-, -, -, ⟨j₁, hgo₁, hmiss⟩, -⟩
        obtain rfl := hgo₁.unique hgo
        exact hmiss hmem

/-- A list that has lost its only page is not restored. -/
theorem StoreAt.second_not_same_of_single
    (h : StoreAt (misplacedBlank image k j) size [])
    (hcall : AllocAttempt (misplacedBlank image k j) schedule size [] status
      file') : ¬SameAllocated file'.image size [k] := by
  rintro ⟨free', h', hfree⟩
  have hk : k ∈ free' := (hfree k).mpr List.mem_cons_self
  cases free' with
  | nil => cases hk
  | cons i rest =>
      have hhead := h'.freelist.head_cons
      rw [h.head_of_alloc hcall] at hhead
      have hlimit := h'.freelist.limit i List.mem_cons_self
      exact pageOffset_ne_emptyList hlimit hhead.symm

/-- However the second allocation ends, the pages that were allocated before the
first one are allocated again exactly if its metadata page is restored by
chance. -/
theorem StoreAt.second_alloc_iff {index₂ : PageIndex}
    {schedule₂ : List Transfer} (h : StoreAt image size free)
    (hfirst : allocPage none (some store) ⟨image, schedule⟩ =
      (.ok, index, ⟨image₁, schedule₁⟩))
    (hsecond : allocPage none (some store) ⟨image₁, schedule₂⟩ =
      (status, index₂, file')) :
    (SameAllocated file'.image size free ↔
      SecondRestores image schedule₂ free) ∧
    (SecondRestores image schedule₂ free → status ≠ .ok) := by
  have houtcome := h.blankOutcome (allocPage_ok hfirst)
  generalize hfile : reliable image₁ = later at houtcome
  cases houtcome with
  | @appended image' hsize hstore hpage hlen =>
      obtain rfl : image₁ = image' := congrArg StoreFile.image hfile
      have hcall := hstore.allocAttempt hsecond
      exact ⟨iff_of_false (hstore.not_same_of_grown hcall) fun hall => hall,
        fun hall => hall.elim⟩
  | @recycled k j rest hj hblank =>
      obtain rfl : image₁ = misplacedBlank image k j :=
        congrArg StoreFile.image hfile
      by_cases hhit : j ∈ rest
      · obtain ⟨hlost, hnot⟩ :=
          h.second_not_same_of_hit ⟨hj, hblank⟩ hhit hsecond
        exact ⟨iff_of_false hlost hnot, fun hall => absurd hall hnot⟩
      · have h₁ := h.misplaced hhit
        have hcall := h₁.allocAttempt hsecond
        cases rest with
        | nil =>
            have hlost := h₁.second_not_same_of_single hcall
            exact ⟨iff_of_false hlost fun hall => hall, fun hall => hall.elim⟩
        | cons i rest =>
            exact ⟨h.second_attempt_iff ⟨hj, hblank⟩ hhit hcall,
              h.second_failed hcall⟩

end NickDB

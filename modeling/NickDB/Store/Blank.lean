import NickDB.Store.Session

/-!
# Outcomes of an allocation without contents

`alloc_page` called without contents writes a page of zeros.  When it takes the
first free page off the list, it converts the byte offset of this page once
more, so the zeros go to some other page.  The store stays well-formed unless
that page is one of the other free pages, whose link word is lost then.
-/

namespace NickDB

open Linked

variable {image image' : ByteFile UInt8} {size : ℕ} {rest free : List ℕ}
  {k j : ℕ} {status : Status} {index : PageIndex} {file' : StoreFile}

/-- The image after the page number `k` has been taken off the list and the
zeros have gone to the page number `j`. -/
def misplacedBlank (image : ByteFile UInt8) (k j : ℕ) : ByteFile UInt8 :=
  writePage (writePage image j blankPage) 0
    (popHead (pageAt image 0) (linkWord (pageAt image k)))

/-- The outcomes of `alloc_page` without contents. -/
inductive BlankOutcome (image : ByteFile UInt8) (size : ℕ) :
    List ℕ → Status → PageIndex → StoreFile → Prop
  | recycled {k j : ℕ} {rest : List ℕ} (hj : j < pageLimit)
      (hblank : indexToOffset (pageOffset k) = pageOffset j) :
      BlankOutcome image size (k :: rest) .ok (Int64.ofNat k)
        (reliable (misplacedBlank image k j))
  | negative {k : ℕ} {rest : List ℕ}
      (hblank : indexToOffset (pageOffset k) < 0) :
      BlankOutcome image size (k :: rest) .badWrite errSet (reliable image)
  | appended {image' : ByteFile UInt8} (hsize : size < pageLimit)
      (hstore : StoreAt image' (size + 1) [])
      (hpage : pageAt image' size = blankPage)
      (hlen : image'.length = max image.length (pageSize * (size + 1))) :
      BlankOutcome image size [] .ok (Int64.ofNat size) (reliable image')
  | full : BlankOutcome image size [] .badWrite errSet (reliable image)

theorem StoreAt.blankOutcome {store : Backing} (h : StoreAt image size free)
    (hcall : allocPage none (some store) (reliable image) =
      (status, index, file')) :
    BlankOutcome image size free status index file' := by
  cases free with
  | nil =>
      rcases Nat.lt_or_eq_of_le h.size_le with hsize | rfl
      · obtain ⟨image', hresult, hstore, hpage, -, hlen⟩ :=
          h.alloc_appended store hsize none
        rw [hresult] at hcall
        cases hcall
        exact .appended hsize hstore hpage hlen
      · rw [h.alloc_limit store none] at hcall
        cases hcall
        exact .full
  | cons k rest =>
      have hk : k < size := h.free_lt k List.mem_cons_self
      have hklimit : k < pageLimit := h.lt_pageLimit hk
      have hhead := h.freelist.head_cons
      by_cases hneg : indexToOffset (pageOffset k) < 0
      · rw [allocPage_recycled_blank_neg store h.inFile_zero hklimit
          (h.inFile hk) hhead hneg] at hcall
        cases hcall
        exact .negative hneg
      · obtain ⟨j, hj, hblank⟩ := exists_page_of_not_neg hneg
        rw [allocPage_recycled_blank store h.inFile_zero hklimit
          (h.inFile hk) hhead hj hblank] at hcall
        cases hcall
        exact .recycled hj hblank

/-! ## Misplaced zeros -/

@[simp] theorem length_misplacedBlank :
    (misplacedBlank image k j).length =
      max (max image.length (pageSize * (j + 1))) (pageSize * 1) := by
  rw [misplacedBlank, length_writePage, length_writePage]

theorem pageAt_misplacedBlank_of_ne {i : ℕ} (hi : i ≠ 0) (hij : i ≠ j) :
    pageAt (misplacedBlank image k j) i = pageAt image i :=
  pageAt_two_writes _ _ hi hij

/-- The zeros may go anywhere but to another free page. -/
theorem StoreAt.misplaced (h : StoreAt image size (k :: rest))
    (hj : j ∉ rest) : StoreAt (misplacedBlank image k j) size rest where
  size_pos := h.size_pos
  size_le := h.size_le
  meta_size := by
    rw [misplacedBlank, pageAt_writePage_self, metaSize_popHead, h.meta_size]
  in_file := h.in_file.trans (length_le_two_writes j _ _)
  freelist := h.freelist.recycled blankPage hj
  free_lt := fun i hi => h.free_lt i (List.mem_cons_of_mem k hi)

/-- The link word of a free page that is overwritten leads to the metadata
page. -/
theorem StoreAt.not_misplaced {size' : ℕ} {free' : List ℕ}
    (h : StoreAt image size (k :: rest)) (hj : j ∈ rest) :
    ¬StoreAt (misplacedBlank image k j) size' free' := by
  intro h'
  have hmem : j ∈ k :: rest := List.mem_cons_of_mem k hj
  have hjlimit : j < pageLimit := h.freelist.limit j hmem
  have hj0 : j ≠ 0 := h.freelist.ne_zero hmem
  have hk : k < pageLimit := h.freelist.limit k List.mem_cons_self
  have hhead : freelistHead (pageAt (misplacedBlank image k j) 0) =
      linkWord (pageAt image k) := by
    rw [misplacedBlank, pageAt_writePage_self, freelistHead_popHead]
  obtain ⟨front, back, rfl⟩ := List.append_of_mem hj
  have hpath := h.freelist.path.2
  rw [List.map_append, List.map_cons, nextFree_pageOffset hk, ← hhead]
    at hpath
  obtain ⟨seam, hfront, rfl, -⟩ := path_append.mp hpath
  -- the pages in front of `j` keep their link words
  have hkept : ∀ i ∈ front, linkWord (pageAt (misplacedBlank image k j) i) =
      linkWord (pageAt image i) := by
    intro i hi
    have hi' : i ∈ k :: (front ++ j :: back) :=
      List.mem_cons_of_mem k (List.mem_append_left _ hi)
    have hij : i ≠ j := by
      rintro rfl
      have hnodup := (List.nodup_cons.mp h.freelist.nodup).2
      exact (List.nodup_append.mp hnodup).2.2 i hi i List.mem_cons_self rfl
    rw [pageAt_misplacedBlank_of_ne (h.freelist.ne_zero hi') hij]
  have hlimit : ∀ i ∈ front, i < pageLimit := fun i hi =>
    h.freelist.limit i (List.mem_cons_of_mem k (List.mem_append_left _ hi))
  have hreaches : Path (nextFree (misplacedBlank image k j))
      (linkTarget (freelistHead (pageAt (misplacedBlank image k j) 0)))
      (front.map pageOffset ++ [pageOffset j]) (some (pageOffset 0)) := by
    refine path_append_singleton.mpr
      ⟨hfront.congr (nextFree_congr hlimit hkept), ?_⟩
    have hblank : pageAt (misplacedBlank image k j) j = blankPage := by
      rw [misplacedBlank, pageAt_writePage_of_ne _ hj0, pageAt_writePage_self]
    rw [nextFree_pageOffset hjlimit, hblank, linkWord_blankPage,
      ← pageOffset_zero]
    exact linkTarget_pageOffset (by decide)
  have hzero : 0 ∈ free' :=
    (h'.freelist.mem_iff_reaches (by decide)).mpr ⟨_, hreaches⟩
  exact h'.freelist.ne_zero hzero rfl

/-- The page of zeros does not go to one of the free pages behind the first
one. -/
def BlankMisses (image : ByteFile UInt8) : Prop :=
  freelistHead (pageAt image 0) ≠ emptyList →
    ¬Reaches (nextFree image)
      (nextFree image (freelistHead (pageAt image 0)))
      (indexToOffset (freelistHead (pageAt image 0)))

theorem StoreAt.reaches_iff (h : StoreAt image size (k :: rest))
    {offset : ByteOffset} :
    Reaches (nextFree image) (nextFree image (freelistHead (pageAt image 0)))
        offset ↔ ∃ i ∈ rest, pageOffset i = offset := by
  have hchain : Chain (nextFree image)
      (nextFree image (freelistHead (pageAt image 0)))
      (rest.map pageOffset) := by
    rw [h.freelist.head_cons]
    exact h.freelist.path.2
  rw [← hchain.mem_iff_reaches, List.mem_map]

theorem StoreAt.blankMisses_iff (h : StoreAt image size (k :: rest))
    (hj : j < pageLimit) (hblank : indexToOffset (pageOffset k) = pageOffset j) :
    BlankMisses image ↔ j ∉ rest := by
  have hhead := h.freelist.head_cons
  have hne : freelistHead (pageAt image 0) ≠ emptyList :=
    hhead ▸ pageOffset_ne_emptyList (h.freelist.limit k List.mem_cons_self)
  rw [BlankMisses, h.reaches_iff, hhead, hblank]
  constructor
  · intro hmisses hmem
    exact hmisses (hhead ▸ hne) ⟨j, hmem, rfl⟩
  · rintro hmem - ⟨i, hi, heq⟩
    have hilimit := h.freelist.limit i (List.mem_cons_of_mem k hi)
    rw [pageOffset_inj hilimit hj] at heq
    exact hmem (heq ▸ hi)

theorem StoreAt.blankMisses_of_neg (h : StoreAt image size (k :: rest))
    (hblank : indexToOffset (pageOffset k) < 0) : BlankMisses image := by
  intro _ hreaches
  rw [h.reaches_iff, h.freelist.head_cons] at hreaches
  obtain ⟨i, hi, heq⟩ := hreaches
  rw [← heq] at hblank
  exact not_pageOffset_neg (h.freelist.limit i (List.mem_cons_of_mem k hi))
    hblank

theorem StoreAt.blankMisses_of_nil (h : StoreAt image size []) :
    BlankMisses image :=
  fun hne => absurd h.freelist.head_nil hne

end NickDB

import NickDB.Store.InUse

/-!
# Free pages after `free_page`

The pages that the list of free pages leads to, as a set.  Freeing a page adds
it to this set.  But if the page was free already and other free pages stood
behind it, these are lost: the link word of the page is overwritten, and they
are never handed out again.
-/

namespace NickDB

open Linked

/-- The byte offsets of the pages on the list of free pages. -/
def freePages (image : ByteFile UInt8) : Set ByteOffset :=
  {offset | Reaches (nextFree image)
    (linkTarget (freelistHead (pageAt image 0))) offset}

variable {image : ByteFile UInt8} {file file' : StoreFile} {size : ℕ}
  {free : List ℕ} {store : Backing} {status : Status} {index : PageIndex}

theorem FreelistAt.mem_freePages (h : FreelistAt image free emptyList)
    {offset : ByteOffset} :
    offset ∈ freePages image ↔ ∃ k ∈ free, pageOffset k = offset := by
  have hchain : Chain (nextFree image)
      (linkTarget (freelistHead (pageAt image 0))) (free.map pageOffset) :=
    h.path
  rw [← List.mem_map]
  exact hchain.mem_iff_reaches.symm

theorem FreelistAt.pageOffset_mem_freePages
    (h : FreelistAt image free emptyList) {k : ℕ} (hk : k < pageLimit) :
    pageOffset k ∈ freePages image ↔ k ∈ free :=
  (h.mem_iff_reaches hk).symm

theorem IsStore.schedule (h : IsStore file) : file.schedule = [] := by
  obtain ⟨size, free, h⟩ := h
  exact h.schedule

/-- The free pages are read off the file. -/
theorem HoldsStore.mem_unique {size size' : ℕ} {free free' : List ℕ}
    (h : HoldsStore file size free) (h' : HoldsStore file size' free')
    {page : ℕ} (hpage : page < pageLimit) : page ∈ free ↔ page ∈ free' := by
  rw [h.storeAt.freelist.mem_iff_reaches hpage,
    h'.storeAt.freelist.mem_iff_reaches hpage]

/-- The number of pages and the free pages after a page was put on the list,
whether or not it exists. -/
theorem HoldsStore.freed {k : ℕ} (h : HoldsStore file size free)
    (hpos : 1 ≤ k) (hk : k < pageLimit)
    (hloc : indexToOffset index = pageOffset k)
    (hcall : freePage (some store) file index = (status, file')) :
    FreelistAt file'.image (requeue k free) emptyList ∧
      metaSize (pageAt file'.image 0) = Int64.ofNat size ∧
      (k < size → HoldsStore file' size (requeue k free)) := by
  have hindex : indexToOffset index = indexToOffset (Int64.ofNat k) :=
    hloc.trans (indexToOffset_ofNat k).symm
  obtain ⟨image', hresult, hfreelist, hsize, -⟩ :=
    h.storeAt.free_any store hpos hk
  rw [freePage_congr hindex, h.eq_reliable, hresult] at hcall
  obtain rfl : reliable image' = file' := congrArg Prod.snd hcall
  refine ⟨hfreelist, hsize, fun hlt => ⟨rfl, ?_⟩⟩
  obtain ⟨image₂, hresult₂, hstore, -⟩ := h.storeAt.free_page store hpos hlt
  rw [hresult] at hresult₂
  cases hresult₂
  exact hstore

theorem HoldsStore.free_iff {k : ℕ} (h : HoldsStore file size free)
    (hk : k < pageLimit) (hloc : indexToOffset index = pageOffset k)
    (hcall : freePage (some store) file index = (status, file')) :
    IsStore file' ↔ k < size := by
  rcases Nat.eq_zero_or_pos k with rfl | hpos
  · rw [freePage_zero store file (hloc.trans pageOffset_zero)] at hcall
    cases hcall
    exact iff_of_true ⟨size, free, h⟩ h.storeAt.size_pos
  · obtain ⟨hfreelist, hsize, hstore⟩ := h.freed hpos hk hloc hcall
    refine ⟨?_, fun hlt => ⟨size, _, hstore hlt⟩⟩
    rintro ⟨size', free', h'⟩
    have hmem : k ∈ free' := by
      rw [h'.storeAt.freelist.mem_iff_reaches hk,
        ← hfreelist.mem_iff_reaches hk]
      exact mem_requeue_self k free
    obtain rfl := pageCount_inj h.storeAt.size_le h'.storeAt.size_le
      (hsize.symm.trans h'.storeAt.meta_size)
    have hlt := h'.storeAt.free_lt k hmem
    omega

/-! ## The list of pages -/

theorem requeue_append {k : ℕ} {front back : List ℕ} (hfront : k ∉ front) :
    requeue k (front ++ k :: back) = front ++ [k] := by
  have hall : ∀ j ∈ front, decide (j ≠ k) = true := by
    intro j hj
    exact decide_eq_true fun heq => hfront (heq ▸ hj)
  rw [requeue, List.takeWhile_append_of_pos hall]
  simp

/-- Putting a page behind the last free one loses no other page exactly when
nothing stands behind its earlier place on the list. -/
theorem requeue_adds_iff {k : ℕ} (hnodup : free.Nodup) :
    (∀ j, j ∈ requeue k free ↔ j = k ∨ j ∈ free) ↔
      (k ∉ free ∨ free.getLast? = some k) := by
  by_cases hk : k ∈ free
  · obtain ⟨front, back, rfl⟩ := List.append_of_mem hk
    obtain ⟨-, hback, hdisjoint⟩ := List.nodup_append.mp hnodup
    have hfront : k ∉ front := fun hmem =>
      hdisjoint k hmem k List.mem_cons_self rfl
    rw [requeue_append hfront]
    cases back with
    | nil => simp [or_comm]
    | cons j back =>
        -- the page `j` behind `k` is lost
        have hj : j ∉ front ++ [k] := by
          intro hmem
          rcases List.mem_append.mp hmem with hmem | hmem
          · exact hdisjoint j hmem j (by simp) rfl
          · obtain rfl := List.mem_singleton.mp hmem
            exact (List.nodup_cons.mp hback).1 List.mem_cons_self
        have hlast : (front ++ k :: j :: back).getLast? ≠ some k := by
          rw [List.getLast?_append_cons, List.getLast?_cons_cons]
          intro hlast
          exact (List.nodup_cons.mp hback).1 (List.mem_of_getLast? hlast)
        refine iff_of_false (fun hall => hj ?_) ?_
        · exact (hall j).mpr (Or.inr (by simp))
        · exact not_or.mpr ⟨not_not.mpr hk, hlast⟩
  · rw [requeue_of_not_mem hk]
    refine iff_of_true (fun j => ?_) (Or.inl hk)
    rw [List.mem_append, List.mem_singleton, or_comm]

theorem FreelistAt.tail_iff (h : FreelistAt image free emptyList) {k : ℕ}
    (hk : k < pageLimit) :
    freelistTail (pageAt image 0) = pageOffset k ↔
      free.getLast? = some k := by
  rw [← linkTarget_inj, h.tail, linkTarget_pageOffset hk, linkTarget_emptyList,
    Option.or_none]
  rcases List.eq_nil_or_concat free with rfl | ⟨front, t, rfl⟩
  · simp
  · have ht : t < pageLimit := h.limit t (by simp)
    simp [pageOffset_inj ht hk]

/-! ## The set of free pages -/

/-- `free_page` adds an existing page to the free pages, and loses none of
them, exactly when the page was not free before or was the last free page. -/
theorem freePage_adds_iff (hstore : IsStore file)
    (hindex : IsPage file index)
    (hcall : freePage (some store) file index = (status, file')) :
    (status = .ok → freePages file'.image =
        insert (indexToOffset index) (freePages file.image)) ↔
      (indexToOffset index ∉ freePages file.image ∨
        freelistTail (pageAt file.image 0) = indexToOffset index) := by
  obtain ⟨size, free, h⟩ := hstore
  obtain ⟨k, rfl, hpos, hk, rfl, h'⟩ := h.free_page hindex hcall
  have hlimit := h.storeAt.lt_pageLimit hk
  have hfree := h.storeAt.freelist
  have hfree' := h'.storeAt.freelist
  rw [indexToOffset_ofNat, hfree.pageOffset_mem_freePages hlimit,
    hfree.tail_iff hlimit, ← requeue_adds_iff hfree.nodup]
  constructor
  · intro hset j
    have hsets := hset rfl
    by_cases hj : j < pageLimit
    · rw [← hfree'.pageOffset_mem_freePages hj, hsets, Set.mem_insert_iff,
        hfree.pageOffset_mem_freePages hj, pageOffset_inj hj hlimit]
    · refine iff_of_false (fun hmem => hj (hfree'.limit j hmem)) ?_
      rintro (rfl | hmem)
      · exact hj hlimit
      · exact hj (hfree.limit j hmem)
  · intro hmem _
    ext offset
    rw [Set.mem_insert_iff, hfree'.mem_freePages, hfree.mem_freePages]
    constructor
    · rintro ⟨j, hj, rfl⟩
      rcases (hmem j).mp hj with rfl | hj
      · exact Or.inl rfl
      · exact Or.inr ⟨j, hj, rfl⟩
    · rintro (rfl | ⟨j, hj, rfl⟩)
      · exact ⟨k, mem_requeue_self k free, rfl⟩
      · exact ⟨j, (hmem j).mpr (Or.inr hj), rfl⟩

/-- Pages 1 and 2 are freed, and page 1 is freed once more: page 2 is not free
any more. -/
theorem freePage_loses_page :
    ∃ file file', IsStore file ∧
      metaSize (pageAt file.image 0) = 3 ∧
      freePage (some ⟨3⟩) file 1 = (.ok, file') ∧
      freePages file'.image ≠
        insert (indexToOffset 1) (freePages file.image) := by
  obtain ⟨image₁, -, hstore₁, -⟩ :=
    (storeAt_blankStore (n := 2) (by decide)).free_page (k := 1) ⟨3⟩
      (by decide) (by decide)
  obtain ⟨image₂, -, hstore₂, -⟩ :=
    hstore₁.free_page (k := 2) ⟨3⟩ (by decide) (by decide)
  obtain ⟨image₃, hfree, hstore₃, -⟩ :=
    hstore₂.free_page (k := 1) ⟨3⟩ (by decide) (by decide)
  refine ⟨reliable image₂, reliable image₃, ⟨3, _, rfl, hstore₂⟩,
    hstore₂.meta_size, hfree, fun hset => ?_⟩
  have hbefore : pageOffset 2 ∈ freePages image₂ :=
    (hstore₂.freelist.pageOffset_mem_freePages (by decide)).mpr (by decide)
  have hafter : pageOffset 2 ∈ freePages image₃ :=
    hset ▸ Set.mem_insert_of_mem _ hbefore
  rw [hstore₃.freelist.pageOffset_mem_freePages (by decide)] at hafter
  exact absurd hafter (by decide)

/-- Pages 1 and 2 of three are freed one after the other. -/
theorem freePage_adds_second :
    ∃ file file', freePage (some ⟨3⟩) file 2 = (.ok, file') ∧
      freePages file'.image =
        insert (indexToOffset 2) (freePages file.image) := by
  obtain ⟨image₁, -, hstore₁, -⟩ :=
    (storeAt_blankStore (n := 2) (by decide)).free_page (k := 1) ⟨3⟩
      (by decide) (by decide)
  obtain ⟨image₂, hfree, -⟩ :=
    hstore₁.free_page (k := 2) ⟨3⟩ (by decide) (by decide)
  have hsize : metaSize (pageAt image₁ 0) = 3 := hstore₁.meta_size
  have hnot : indexToOffset 2 ∉ freePages image₁ := by
    refine mt (hstore₁.freelist.pageOffset_mem_freePages
      (k := 2) (by decide)).mp ?_
    decide
  have hindex : IsPage (reliable image₁) 2 := by
    rw [IsPage, hsize]
    decide
  have hstore : IsStore (reliable image₁) := ⟨3, _, rfl, hstore₁⟩
  exact ⟨reliable image₁, reliable image₂, hfree,
    (freePage_adds_iff hstore hindex hfree).mpr (Or.inl hnot) rfl⟩

end NickDB

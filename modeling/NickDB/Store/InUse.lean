import NickDB.Store.Blank

/-!
# Pages in use

A page that has been allocated lies in the store and is not free, and it stays
so until it is freed.  This holds along every run whose calls of `free_page`
name pages of the store or are refused, and whose misplaced pages of zeros miss
the free pages.
-/

namespace NickDB

open Linked Runs

/-- `free_page` refuses the index: it leads to the metadata page, or to a
negative offset while no page is free. -/
def RefusesFree (file : StoreFile) (index : PageIndex) : Prop :=
  indexToOffset index = 0 ∨
    (indexToOffset index < 0 ∧
      freelistHead (pageAt file.image 0) = emptyList)

/-- The index of a page of the store, other than the metadata page. -/
def IsPage (file : StoreFile) (index : PageIndex) : Prop :=
  0 < index ∧ index < metaSize (pageAt file.image 0)

/-- The calls considered: allocations whose zeros miss the free pages, and
`free_page` on a page of the store or on an index it refuses. -/
def FreesExisting (file : StoreFile) : StoreEvent → Prop
  | .alloc src _ _ => src = none → BlankMisses file.image
  | .free index _ => IsPage file index ∨ RefusesFree file index
  | .get _ _ _ _ => False
  | .put _ _ _ => False

variable {file file' : StoreFile} {size : ℕ} {free : List ℕ}
  {store : Backing}

/-! ## One lemma for each call -/

/-- What one allocation does: the head of the list, or a page past the end of
the store, or nothing at all. -/
theorem HoldsStore.alloc_page {src : Option Page} {status : Status}
    {index : PageIndex} (h : HoldsStore file size free)
    (hmisses : src = none → BlankMisses file.image)
    (hcall : storeStep store file (.alloc src status index) file') :
    (∃ k rest, free = k :: rest ∧ status = .ok ∧ index = Int64.ofNat k ∧
      HoldsStore file' size rest) ∨
    (free = [] ∧ status = .ok ∧ index = Int64.ofNat size ∧
      size < pageLimit ∧ HoldsStore file' (size + 1) []) ∨
    (status ≠ .ok ∧ file' = file) := by
  have hsame := h.eq_reliable
  rw [hsame] at hcall
  have hstore := h.storeAt
  cases src with
  | none =>
      have houtcome : BlankOutcome file.image size free status index file' :=
        hstore.blankOutcome hcall
      cases houtcome with
      | @recycled k j rest hj hblank =>
          have hmem := (hstore.blankMisses_iff hj hblank).mp (hmisses rfl)
          exact Or.inl ⟨k, rest, rfl, rfl, rfl, rfl, hstore.misplaced hmem⟩
      | negative hblank =>
          exact Or.inr (Or.inr ⟨by decide, hsame.symm⟩)
      | appended hsize hstore' hpage hlen =>
          exact Or.inr (Or.inl ⟨rfl, rfl, rfl, hsize, rfl, hstore'⟩)
      | full => exact Or.inr (Or.inr ⟨by decide, hsame.symm⟩)
  | some src =>
      cases free with
      | cons k rest =>
          obtain ⟨image', hresult, hstore', -⟩ :=
            hstore.alloc_recycled store src
          obtain ⟨rfl, rfl, rfl⟩ : Status.ok = status ∧
              Int64.ofNat k = index ∧ reliable image' = file' := by
            simpa using hresult.symm.trans hcall
          exact Or.inl ⟨k, rest, rfl, rfl, rfl, rfl, hstore'⟩
      | nil =>
          rcases Nat.lt_or_eq_of_le hstore.size_le with hlimit | rfl
          · obtain ⟨image', hresult, hstore', -⟩ :=
              hstore.alloc_appended store hlimit (some src)
            obtain ⟨rfl, rfl, rfl⟩ : Status.ok = status ∧
                Int64.ofNat size = index ∧ reliable image' = file' := by
              simpa using hresult.symm.trans hcall
            exact Or.inr (Or.inl ⟨rfl, rfl, rfl, hlimit, rfl, hstore'⟩)
          · have hresult := hstore.alloc_limit store (some src)
            obtain ⟨rfl, -, rfl⟩ : Status.badWrite = status ∧
                errSet = index ∧ reliable file.image = file' := by
              simpa using hresult.symm.trans hcall
            exact Or.inr (Or.inr ⟨by decide, hsame.symm⟩)

/-- The index of a page names it by its number. -/
theorem IsPage.exists_number {index : PageIndex} (h : IsPage file index)
    (hsize : metaSize (pageAt file.image 0) = Int64.ofNat size)
    (hle : size ≤ pageLimit) :
    ∃ k, index = Int64.ofNat k ∧ 1 ≤ k ∧ k < size := by
  obtain ⟨hpos, hlt⟩ := h
  rw [hsize, Int64.lt_iff_toInt_lt, toInt_pageCount hle] at hlt
  rw [Int64.lt_iff_toInt_lt, Int64.toInt_zero] at hpos
  obtain ⟨k, hk⟩ := Int.eq_ofNat_of_zero_le hpos.le
  have hsmall : k < size := by omega
  refine ⟨k, Int64.toInt_inj.mp ?_, by omega, hsmall⟩
  rw [hk, toInt_pageCount (hsmall.le.trans hle)]

theorem HoldsStore.exists_page {index : PageIndex}
    (h : HoldsStore file size free)
    (hindex : IsPage file index) :
    ∃ k, index = Int64.ofNat k ∧ 1 ≤ k ∧ k < size :=
  hindex.exists_number h.storeAt.meta_size h.storeAt.size_le

theorem HoldsStore.free_page {index : PageIndex} {status : Status}
    (h : HoldsStore file size free)
    (hindex : IsPage file index)
    (hcall : storeStep store file (.free index status) file') :
    ∃ k, index = Int64.ofNat k ∧ 1 ≤ k ∧ k < size ∧ status = .ok ∧
      HoldsStore file' size (requeue k free) := by
  obtain ⟨k, rfl, hpos, hk⟩ := h.exists_page hindex
  rw [h.eq_reliable] at hcall
  obtain ⟨image', hresult, hstore', -⟩ :=
    h.storeAt.free_page store hpos hk
  obtain ⟨rfl, rfl⟩ : Status.ok = status ∧ reliable image' = file' := by
    simpa using hresult.symm.trans hcall
  exact ⟨k, rfl, hpos, hk, rfl, rfl, hstore'⟩

theorem RefusesFree.unchanged {index : PageIndex} {status : Status}
    (h : HoldsStore file size free) (hrefuses : RefusesFree file index)
    (hcall : freePage (some store) file index = (status, file')) :
    status ≠ .ok ∧ file' = file := by
  rcases hrefuses with hzero | ⟨hneg, hempty⟩
  · rw [freePage_zero store file hzero] at hcall
    cases hcall
    exact ⟨by decide, rfl⟩
  · have hnil : free = [] := by
      cases free with
      | nil => rfl
      | cons k rest =>
          rw [h.storeAt.freelist.head_cons] at hempty
          have hk := h.storeAt.freelist.limit k List.mem_cons_self
          exact absurd hempty (pageOffset_ne_emptyList hk)
    subst hnil
    have htail := h.storeAt.freelist.tail_nil
    have hresult := freePage_first_neg store h.storeAt.inFile_zero hneg
      ⟨htail, hempty⟩
    rw [← h.eq_reliable, hcall] at hresult
    cases hresult
    exact ⟨by decide, rfl⟩

/-! ## Runs -/

/-- The file is a store. -/
def IsStore (file : StoreFile) : Prop := ∃ size free, HoldsStore file size free

theorem IsStore.step {event : StoreEvent} (h : IsStore file)
    (hcall : Guarded (storeStep store) FreesExisting file event file') :
    IsStore file' := by
  obtain ⟨size, free, h⟩ := h
  obtain ⟨hguard, hcall⟩ := hcall
  cases event with
  | alloc src status index =>
      rcases h.alloc_page hguard hcall with ⟨k, rest, -, -, -, h'⟩ |
          ⟨-, -, -, -, h'⟩ | ⟨-, rfl⟩
      · exact ⟨size, rest, h'⟩
      · exact ⟨size + 1, [], h'⟩
      · exact ⟨size, free, h⟩
  | free index status =>
      rcases hguard with hpage | hrefuses
      · obtain ⟨k, -, -, -, -, h'⟩ := h.free_page hpage hcall
        exact ⟨size, requeue k free, h'⟩
      · obtain ⟨-, rfl⟩ := hrefuses.unchanged h hcall
        exact ⟨size, free, h⟩
  | get dest index status read => exact hguard.elim
  | put src index status => exact hguard.elim

/-- A page in use: it lies in the store and is not free. -/
def InUse (page : ℕ) (file : StoreFile) : Prop :=
  ∃ size free, HoldsStore file size free ∧ page < size ∧ page ∉ free

/-- A page in use stays so and is not handed out, unless it is freed. -/
theorem InUse.step {page : ℕ} {event : StoreEvent} (h : InUse page file)
    (hfree : ∀ status, event ≠ .free (Int64.ofNat page) status)
    (hcall : Guarded (storeStep store) FreesExisting file event file') :
    InUse page file' ∧
      ∀ src, event ≠ .alloc src .ok (Int64.ofNat page) := by
  obtain ⟨size, free, h, hpage, hmem⟩ := h
  obtain ⟨hguard, hcall⟩ := hcall
  have hlimit : page < pageLimit := h.storeAt.lt_pageLimit hpage
  cases event with
  | alloc src status index =>
      rcases h.alloc_page hguard hcall with ⟨k, rest, rfl, rfl, rfl, h'⟩ |
          ⟨rfl, rfl, rfl, hsize, h'⟩ | ⟨hstatus, rfl⟩
      · have hk : k < pageLimit := h.storeAt.freelist.limit k List.mem_cons_self
        refine ⟨⟨size, rest, h', hpage,
          fun hrest => hmem (List.mem_cons_of_mem k hrest)⟩, ?_⟩
        intro src heq
        injection heq with _ _ hindex
        obtain rfl := (pageIndex_inj hk hlimit).mp hindex
        exact hmem List.mem_cons_self
      · refine ⟨⟨size + 1, [], h', by omega, by simp⟩, ?_⟩
        intro src heq
        injection heq with _ _ hindex
        rw [pageIndex_inj hsize hlimit] at hindex
        omega
      · refine ⟨⟨size, free, h, hpage, hmem⟩, ?_⟩
        intro src heq
        injection heq with _ hok _
        exact hstatus hok
  | free index status =>
      rcases hguard with hindex | hrefuses
      · obtain ⟨k, rfl, -, -, -, h'⟩ := h.free_page hindex hcall
        have hne : page ≠ k := by
          rintro rfl
          exact hfree status rfl
        refine ⟨⟨size, requeue k free, h', hpage, ?_⟩, nofun⟩
        intro hrequeue
        rcases mem_of_mem_requeue hrequeue with hold | heq
        · exact hmem hold
        · exact hne heq
      · obtain ⟨-, rfl⟩ := hrefuses.unchanged h hcall
        exact ⟨⟨size, free, h, hpage, hmem⟩, nofun⟩
  | get dest index status read => exact hguard.elim
  | put src index status => exact hguard.elim

/-- An allocated page is in use. -/
theorem IsStore.inUse_of_alloc {src : Option Page} {index : PageIndex}
    (h : IsStore file)
    (hcall : Guarded (storeStep store) FreesExisting file
      (.alloc src .ok index) file') :
    ∃ page, index = Int64.ofNat page ∧ InUse page file' := by
  obtain ⟨size, free, h⟩ := h
  obtain ⟨hguard, hcall⟩ := hcall
  rcases h.alloc_page hguard hcall with ⟨k, rest, rfl, -, rfl, h'⟩ |
      ⟨rfl, -, rfl, -, h'⟩ | ⟨hstatus, -⟩
  · refine ⟨k, rfl, size, rest, h', ?_, ?_⟩
    · exact h.storeAt.free_lt k List.mem_cons_self
    · exact (List.nodup_cons.mp h.storeAt.freelist.nodup).1
  · exact ⟨size, rfl, size + 1, [], h', Nat.lt_succ_self size, by simp⟩
  · exact absurd rfl hstatus

/-- A page in use is not handed out by a run that does not free it. -/
theorem InUse.not_alloc_mem {page : ℕ} {events : List StoreEvent}
    (h : InUse page file)
    (hrun : Run (Guarded (storeStep store) FreesExisting) file events file')
    (hfree : ∀ status, .free (Int64.ofNat page) status ∉ events)
    (src : Option Page) :
    .alloc src .ok (Int64.ofNat page) ∉ events := by
  induction hrun with
  | nil file => simp
  | @cons file file₁ file₂ event events hstep _ ih =>
      obtain ⟨h', hne⟩ := h.step
        (fun status heq => hfree status (heq ▸ List.mem_cons_self)) hstep
      intro hmem
      rcases List.mem_cons.mp hmem with heq | hrest
      · exact hne src heq.symm
      · exact ih h' (fun status hs =>
          hfree status (List.mem_cons_of_mem event hs)) hrest

/-- An allocated page is not allocated again before it has been freed. -/
theorem IsStore.not_alloc_twice {events front mid back : List StoreEvent}
    {src src' : Option Page} {index : PageIndex} (h : IsStore file)
    (hrun : Run (Guarded (storeStep store) FreesExisting) file events file')
    (heq : events = front ++ .alloc src .ok index :: mid ++
      .alloc src' .ok index :: back) :
    ∃ status, .free index status ∈ mid := by
  subst heq
  rw [List.append_assoc, run_append_iff] at hrun
  obtain ⟨file₁, hfront, hrun⟩ := hrun
  obtain ⟨file₂, halloc, hrest⟩ := run_cons_iff.mp hrun
  have hstore : IsStore file₁ :=
    hfront.invariant (fun _ _ _ h hcall => IsStore.step h hcall) h
  obtain ⟨page, rfl, hinUse⟩ := hstore.inUse_of_alloc halloc
  by_contra hnone
  push Not at hnone
  obtain ⟨file₃, hmid, hback⟩ := run_append_iff.mp hrest
  obtain ⟨file₄, hagain, -⟩ := run_cons_iff.mp hback
  have hnot := hinUse.not_alloc_mem
    (run_append_iff.mpr ⟨file₃, hmid, .cons hagain (.nil _)⟩)
    (fun status hmem => by
      rcases List.mem_append.mp hmem with hmem | hmem
      · exact hnone status hmem
      · simp at hmem) src'
  exact hnot (by simp)

end NickDB

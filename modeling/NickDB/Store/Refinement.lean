import NickDB.Store.Session
import NickDB.Support.FifoStore

/-!
# The page store refines a store with first-in first-out reuse

The image on disk represents an abstract store: the metadata page holds its
size, the list of free pages is its queue, and every page in use has the bytes
the abstract store says.  Each call made within the limits of the abstract
store returns `ok` and is a step of it.
-/

namespace NickDB

open Runs

/-- The file represents the abstract store. -/
structure Represents (file : StoreFile) (abstract : FifoStore Page) : Prop
    extends HoldsStore file abstract.size abstract.queue where
  contents : ∀ k page, abstract.contents k = some page →
    pageAt file.image k = page

/-- What a call with its result means for the abstract store. -/
def StoreEvent.Denotes : StoreEvent → FifoStore.Event Page → Prop
  | .alloc src status index, .alloc value k =>
      src = some value ∧ status = .ok ∧ index = Int64.ofNat k
  | .free index status, .free k => index = Int64.ofNat k ∧ status = .ok
  | .get _ index status read, .get k value =>
      index = Int64.ofNat k ∧ status = .ok ∧ read = value
  | .put src index status, .put k value =>
      src = value ∧ index = Int64.ofNat k ∧ status = .ok
  | _, _ => False

/-- A step of the abstract store that the call denotes. -/
def abstractStep (s : FifoStore Page) (event : StoreEvent)
    (t : FifoStore Page) : Prop :=
  ∃ meaning, event.Denotes meaning ∧ FifoStore.Step s meaning t

/-- The index of a page in use. -/
def IsAllocated (s : FifoStore Page) (index : PageIndex) : Prop :=
  ∃ k, index = Int64.ofNat k ∧ s.InUse k

/-- The calls considered: allocations with contents, and calls on pages that
are in use, on a store that still fits below the largest offset. -/
def InLimits (s : FifoStore Page) (event : StoreEvent) : Prop :=
  pageSize * s.size < 2 ^ 63 ∧
    match event with
    | .alloc src _ _ => src ≠ none
    | .free index _ => IsAllocated s index
    | .get _ index _ _ => IsAllocated s index
    | .put _ index _ => IsAllocated s index

variable {file file' : StoreFile} {s : FifoStore Page} {store : Backing}

theorem isAllocated_of_alloc {src : Option Page} {status : Status}
    {index : PageIndex} {t : FifoStore Page}
    (h : abstractStep s (.alloc src status index) t) :
    IsAllocated t index ∧ t.size ≤ s.size + 1 := by
  obtain ⟨meaning, hdenotes, hstep⟩ := h
  cases hstep with
  | reuse hqueue value =>
      obtain ⟨-, -, hindex⟩ := hdenotes
      refine ⟨⟨_, hindex, ?_⟩, Nat.le_succ _⟩
      simp [FifoStore.InUse]
  | extend hqueue value =>
      obtain ⟨-, -, hindex⟩ := hdenotes
      refine ⟨⟨_, hindex, ?_⟩, Nat.le_refl _⟩
      simp [FifoStore.InUse]
  | free h => exact hdenotes.elim
  | get h => exact hdenotes.elim
  | put h value => exact hdenotes.elim

theorem size_of_free {index : PageIndex} {status : Status}
    {t : FifoStore Page} (h : abstractStep s (.free index status) t) :
    t.size = s.size := by
  obtain ⟨meaning, hdenotes, hstep⟩ := h
  cases hstep with
  | free hused => rfl
  | reuse hqueue value => exact hdenotes.elim
  | extend hqueue value => exact hdenotes.elim
  | get hvalue => exact hdenotes.elim
  | put hused value => exact hdenotes.elim

theorem represents_created {storefd : ℤ}
    (h : createNewBacking storefd [] = (.ok, file)) :
    Represents file FifoStore.initial where
  toHoldsStore := holdsStore_created h
  contents := by
    intro k page hk
    cases hk

/-- Bytes that are written to the page number `n` of both stores. -/
theorem Represents.contents_update {image' : ByteFile UInt8} {n : ℕ}
    {src : Page} (h : Represents file s) (hnew : pageAt image' n = src)
    (hsame : ∀ j, j ≠ 0 → j ≠ n → pageAt image' j = pageAt file.image j)
    (j : ℕ) (page : Page)
    (hj : Function.update s.contents n (some src) j = some page) :
    pageAt image' j = page := by
  by_cases hjn : j = n
  · rw [hjn, Function.update_self] at hj
    rw [hjn, hnew, Option.some.inj hj]
  · rw [Function.update_of_ne hjn] at hj
    have hbounds := FifoStore.InUse.bounds (Option.isSome_of_eq_some hj)
    exact (hsame j (by omega) hjn).trans (h.contents j page hj)

/-! ## One simulation lemma for each call -/

theorem Represents.alloc {src : Page} {status : Status} {index : PageIndex}
    (h : Represents file s) (hsize : s.size < pageLimit)
    (hcall : storeStep store file (.alloc (some src) status index) file') :
    ∃ t, abstractStep s (.alloc (some src) status index) t ∧
      Represents file' t := by
  have hstore := h.storeAt
  rw [h.eq_reliable] at hcall
  cases hqueue : s.queue with
  | nil =>
      rw [hqueue] at hstore
      obtain ⟨image', hresult, hstore', hnew, hsame, -⟩ :=
        hstore.alloc_appended store hsize (some src)
      obtain ⟨rfl, rfl, rfl⟩ : Status.ok = status ∧
          Int64.ofNat s.size = index ∧ reliable image' = file' := by
        simpa using hresult.symm.trans hcall
      refine ⟨s.extend hqueue src,
        ⟨.alloc src s.size, ⟨rfl, rfl, rfl⟩, .extend hqueue src⟩, ?_⟩
      exact
        { schedule := rfl
          storeAt := hstore'
          contents := by
            simp only [FifoStore.contents_extend]
            exact h.contents_update hnew hsame }
  | cons k rest =>
      rw [hqueue] at hstore
      obtain ⟨image', hresult, hstore', hnew, hsame⟩ :=
        hstore.alloc_recycled store src
      obtain ⟨rfl, rfl, rfl⟩ : Status.ok = status ∧
          Int64.ofNat k = index ∧ reliable image' = file' := by
        simpa using hresult.symm.trans hcall
      refine ⟨s.reuse hqueue src,
        ⟨.alloc src k, ⟨rfl, rfl, rfl⟩, .reuse hqueue src⟩, ?_⟩
      exact
        { schedule := rfl
          storeAt := hstore'
          contents := by
            simp only [FifoStore.contents_reuse]
            exact h.contents_update hnew hsame }

theorem Represents.free {index : PageIndex} {status : Status}
    (h : Represents file s) (hindex : IsAllocated s index)
    (hcall : storeStep store file (.free index status) file') :
    ∃ t, abstractStep s (.free index status) t ∧ Represents file' t := by
  obtain ⟨k, rfl, hk⟩ := hindex
  rw [h.eq_reliable] at hcall
  obtain ⟨image', hresult, hstore', hsame⟩ :=
    h.storeAt.free_page store hk.bounds.1 hk.bounds.2
  obtain ⟨rfl, rfl⟩ : Status.ok = status ∧ reliable image' = file' := by
    simpa using hresult.symm.trans hcall
  rw [requeue_of_not_mem hk.not_mem_queue] at hstore'
  refine ⟨s.giveBack hk, ⟨.free k, ⟨rfl, rfl⟩, .free hk⟩, ?_⟩
  exact
    { schedule := rfl
      storeAt := hstore'
      contents := by
        intro j page hj
        by_cases hjk : j = k
        · subst hjk
          rw [FifoStore.contents_giveBack, Function.update_self] at hj
          cases hj
        · rw [FifoStore.contents_giveBack, Function.update_of_ne hjk] at hj
          have hinUse : s.InUse j := Option.isSome_of_eq_some hj
          have hbounds := hinUse.bounds
          exact (hsame j (by omega) hinUse.not_mem_queue hjk).trans
            (h.contents j page hj) }

theorem Represents.get {dest read : Page} {index : PageIndex}
    {status : Status} (h : Represents file s) (hindex : IsAllocated s index)
    (hcall : storeStep store file (.get dest index status read) file') :
    ∃ t, abstractStep s (.get dest index status read) t ∧
      Represents file' t := by
  obtain ⟨k, rfl, hk⟩ := hindex
  obtain ⟨page, hpage⟩ := Option.isSome_iff_exists.mp hk
  rw [h.eq_reliable] at hcall
  have hresult := h.storeAt.get_page store hk.bounds.1 hk.bounds.2
    dest
  obtain ⟨rfl, rfl, rfl⟩ : Status.ok = status ∧ pageAt file.image k = read ∧
      reliable file.image = file' := by
    simpa using hresult.symm.trans hcall
  rw [h.contents k page hpage]
  refine ⟨s, ⟨.get k page, ⟨rfl, rfl, rfl⟩, .get hpage⟩, ?_⟩
  rwa [← h.eq_reliable]

theorem Represents.put {src : Page} {index : PageIndex} {status : Status}
    (h : Represents file s) (hindex : IsAllocated s index)
    (hcall : storeStep store file (.put src index status) file') :
    ∃ t, abstractStep s (.put src index status) t ∧ Represents file' t := by
  obtain ⟨k, rfl, hk⟩ := hindex
  rw [h.eq_reliable] at hcall
  obtain ⟨hresult, hstore'⟩ := h.storeAt.put_page store
    hk.bounds.1 hk.bounds.2 hk.not_mem_queue src
  obtain ⟨rfl, rfl⟩ : Status.ok = status ∧
      reliable (writePage file.image k src) = file' := by
    simpa using hresult.symm.trans hcall
  refine ⟨s.assign hk src, ⟨.put k src, ⟨rfl, rfl, rfl⟩, .put hk src⟩, ?_⟩
  exact
    { schedule := rfl
      storeAt := hstore'
      contents := by
        simp only [FifoStore.contents_assign]
        exact h.contents_update (pageAt_writePage_self k src)
          fun j _ hjk => pageAt_writePage_of_ne src hjk }

/-- Every call within the limits is a step of the abstract store. -/
theorem Represents.step {event : StoreEvent} (h : Represents file s)
    (hlimits : InLimits s event) (hcall : storeStep store file event file') :
    ∃ t, abstractStep s event t ∧ Represents file' t := by
  obtain ⟨hsize, hevent⟩ := hlimits
  cases event with
  | alloc src status index =>
      obtain ⟨value, rfl⟩ := Option.ne_none_iff_exists'.mp hevent
      have hlimit : s.size < pageLimit := by
        simp only [pageSize, pageLimit] at *
        omega
      exact h.alloc hlimit hcall
  | free index status => exact h.free hevent hcall
  | get dest index status read => exact h.get hevent hcall
  | put src index status => exact h.put hevent hcall

/-- The page store refines the abstract store: a fresh store represents the
empty one, every call within the limits is a step of the abstract store, and
so is every call of a run that stays within them. -/
theorem pageStore_refines_fifoStore (store : Backing) :
    (∀ storefd file, createNewBacking storefd [] = (.ok, file) →
      Represents file FifoStore.initial) ∧
    (∀ file s event file', Represents file s → InLimits s event →
      storeStep store file event file' →
      ∃ t, abstractStep s event t ∧ Represents file' t) ∧
    ∀ storefd file events file',
      createNewBacking storefd [] = (.ok, file) →
      Run (storeStep store) file events file' →
      Admissible abstractStep InLimits FifoStore.initial events →
      ∃ t, Run abstractStep FifoStore.initial events t ∧
        Represents file' t := by
  refine ⟨fun _ _ => represents_created, fun _ _ _ _ => Represents.step, ?_⟩
  intro storefd file events file' hcreate hrun hlimits
  exact hrun.simulate (fun _ _ _ _ => Represents.step)
    (represents_created hcreate) hlimits

/-- A page is allocated and freed on a fresh store; the next allocation takes
it again and its new contents are read back. -/
theorem pageStore_refines_fifoStore_readBack :
    ∃ file' t,
      Run abstractStep FifoStore.initial
        [.alloc (some (linkPage 0)) .ok 1, .free 1 .ok,
          .alloc (some blankPage) .ok 1, .get (linkPage 0) 1 .ok blankPage] t ∧
      Represents file' t := by
  have hcreate := createNewBacking_reliable (show (3 : ℤ) ≠ -1 by decide)
  obtain ⟨image₁, image₂, image₃, halloc, hfree, hreuse, -, hstore₃, hpage⟩ :=
    storeAt_createdImage.alloc_freed ⟨3⟩ (by decide) (linkPage 0) blankPage
  have hget := hstore₃.get_page (k := 1) ⟨3⟩ (by decide) (by decide)
    (linkPage 0)
  rw [hpage] at hget
  refine ⟨_, (pageStore_refines_fifoStore ⟨3⟩).2.2 3 _ _ _ hcreate
    (.cons halloc (.cons hfree (.cons hreuse (.cons hget (.nil _))))) ?_⟩
  have hroom : ∀ n ≤ 3, pageSize * n < 2 ^ 63 := by
    intro n hn
    simp only [pageSize]
    omega
  have hsrc : ∀ page : Page, some page ≠ none := Option.some_ne_none
  refine admissible_cons ⟨hroom 1 (by decide), hsrc _⟩ fun s₁ h₁ => ?_
  obtain ⟨hused₁, hsize₁⟩ := isAllocated_of_alloc h₁
  have hsize₁' : s₁.size ≤ 2 := hsize₁
  refine admissible_cons ⟨hroom _ (by omega), hused₁⟩ fun s₂ h₂ => ?_
  have hsize₂ := size_of_free h₂
  refine admissible_cons ⟨hroom _ (by omega), hsrc _⟩ fun s₃ h₃ => ?_
  obtain ⟨hused₃, hsize₃⟩ := isAllocated_of_alloc h₃
  exact admissible_cons ⟨hroom _ (by omega), hused₃⟩ fun _ _ =>
    admissible_nil

end NickDB

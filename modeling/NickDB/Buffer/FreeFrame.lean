import NickDB.Buffer.Flush
import NickDB.Store.Completed

/-!
# Freeing a frame

`buff_free_frame` forces the state of the frame, so that `buff_unpin` puts it on
the free list whatever it was, and frees the page afterwards.  A frame that is
not pinned is not refused, and a call whose `free_page` fails has released the
frame already.  So it frees the frame or changes nothing only where the frame
is pinned and its page can be freed.
-/

namespace NickDB

open Linked BufferManager

variable {frames : ℕ}

/-- The frame `f` is free, and its page has been appended to the list `free` of
free pages of the store. -/
structure FrameFreed (manager manager' : BufferManager frames)
    (f : Fin frames) (free : List ℕ) (file' : StoreFile) : Prop where
  state : manager'.state f = .unpinned
  listed : ∃ xs, Chain manager'.link manager'.freelist xs ∧ xs.count f = 1
  unlisted : ¬Reaches manager'.link manager'.writeback f
  page : ∃ k, indexToOffset (manager.index f) = pageOffset k ∧
    FreelistAt file'.image (free ++ [k]) emptyList

/-- The lists, the meta frames and the store are as before. -/
structure NothingFreed (manager manager' : BufferManager frames)
    (file file' : StoreFile) : Prop where
  freelist : manager'.freelist = manager.freelist
  writeback : manager'.writeback = manager.writeback
  metaframes : manager'.metaframes = manager.metaframes
  image : file'.image = file.image

/-- The call returns; it frees the frame if that is pinned, refuses it
otherwise, and changes nothing where it returns an error. -/
def FreesOrKeeps (manager : BufferManager frames) (file : StoreFile)
    (f : Fin frames) (free : List ℕ) : Prop :=
  ∃ status manager' file', buffFreeFrame manager file (some f) =
      some (status, manager', file') ∧
    ((manager.state f).IsPinned → status = .ok →
      FrameFreed manager manager' f free file') ∧
    (¬(manager.state f).IsPinned → status ≠ .ok) ∧
    (status ≠ .ok → NothingFreed manager manager' file file')

/-- The index names a page that is not on the list `free`, and no transfer of
its `free_page` fails or stops short. -/
def CanFree (file : StoreFile) (index : PageIndex) (free : List ℕ) : Prop :=
  0 < indexToOffset index ∧ (∀ k ∈ free, pageOffset k ≠ indexToOffset index) ∧
    FreeCompletes file.image file.schedule

variable {manager manager' : BufferManager frames} {file file' : StoreFile}
  {store : Backing} {size : ℕ} {free : List ℕ} {index : PageIndex}

/-! ## The page -/

/-- Where the page can be freed, `free_page` appends it to the list. -/
theorem StoreAt.free_appends (h : StoreAt file.image size free)
    (hcan : CanFree file index free) :
    ∃ file' k, freePage (some store) file index = (.ok, file') ∧
      indexToOffset index = pageOffset k ∧
      FreelistAt file'.image (free ++ [k]) emptyList := by
  obtain ⟨hpositive, hfresh, hcompletes⟩ := hcan
  rcases indexToOffset_cases index with hzero | hneg | ⟨k, hpos, hk, hloc⟩
  · rw [hzero] at hpositive
    exact absurd hpositive (by decide)
  · exact absurd (Int64.lt_trans hpositive hneg) (by decide)
  · obtain ⟨status, file', hcall, hstatus, hsame⟩ :=
      @StoreAt.freePage_iff file.image file.schedule k size free index h store
        hpos hk hloc
    obtain rfl := hstatus.mpr hcompletes
    obtain ⟨image', hreliable, hfreelist, -⟩ := h.free_any store hpos hk
    have hagain : freePage (some store) (reliable file.image) index =
        (.ok, reliable image') := by
      rw [← hreliable, freePage, freePage, hloc, indexToOffset_ofNat]
    have himage : file'.image = image' := by
      have heq := (hsame rfl).symm.trans hagain
      exact congrArg (fun result => result.2.image) heq
    have hmem : k ∉ free := fun hmem => hfresh k hmem hloc.symm
    refine ⟨file', k, hcall, hloc, ?_⟩
    rw [himage]
    rwa [requeue_of_not_mem hmem] at hfreelist

/-- Where `free_page` succeeds and appends the page to the list, it can be
freed. -/
theorem StoreAt.canFree (h : StoreAt file.image size free)
    (hcall : freePage (some store) file index = (.ok, file'))
    (happended : ∃ k, indexToOffset index = pageOffset k ∧
      FreelistAt file'.image (free ++ [k]) emptyList) :
    CanFree file index free := by
  obtain ⟨j, hj, hlist⟩ := happended
  have hjlimit : j < pageLimit := hlist.limit j (by simp)
  have hjpos : 1 ≤ j := (hlist.inFile j (by simp)).1
  obtain ⟨status, file₁, hresult, hstatus, -⟩ :=
    @StoreAt.freePage_iff file.image file.schedule j size free index h store
      hjpos hjlimit hj
  rw [hcall] at hresult
  refine ⟨?_, ?_, hstatus.mp (congrArg Prod.fst hresult).symm⟩
  · rw [hj, Int64.lt_iff_toInt_lt, toInt_pageOffset hjlimit, Int64.toInt_zero]
    omega
  · intro k hk heq
    rw [hj, pageOffset_inj (h.freelist.limit k hk) hjlimit] at heq
    subst heq
    -- the list that the call leaves behind has no page twice
    exact (List.nodup_append.mp hlist.nodup).2.2 k hk k (by simp) rfl

/-! ## The frame -/

/-- A frame that is released is in another state, or linked to itself. -/
theorem ListsSound.pushFree_ne (h : ListsSound manager) (f : Fin frames)
    (hfree : (manager.pushFree f).freelist = manager.freelist)
    (hmeta : (manager.pushFree f).metaframes = manager.metaframes) :
    False := by
  have hstate : (manager.pushFree f).state f = manager.state f :=
    congrArg (fun metaframes => (metaframes f).state) hmeta
  have hlink : (manager.pushFree f).link f = manager.link f :=
    congrArg (fun metaframes => (metaframes f).nextFreeOrDirty) hmeta
  rw [state_pushFree, Function.update_self] at hstate
  rw [link_pushFree, Function.update_self, ← hfree, freelist_pushFree]
    at hlink
  have hends : Ends manager.link (some f) := by
    rw [← freelist_pushFree manager f, hfree]
    obtain ⟨xs, hxs, -⟩ := h.free
    exact ⟨xs, hxs⟩
  apply hends.not_reaches_self
  exact ⟨[], hlink.symm⟩

/-- What a call leaves behind for a frame that is pinned. -/
theorem ListsSound.frameFreed (h : ListsSound manager) {f : Fin frames}
    (hf : (manager.state f).IsPinned) (table : LookupTable)
    (hpage : ∃ k, indexToOffset (manager.index f) = pageOffset k ∧
      FreelistAt file'.image (free ++ [k]) emptyList) :
    FrameFreed manager ((manager.pushFree f).setTable table) f free file' := by
  have hmoved := h.unpinnedClean hf table
  have hkept : ListsSound ((manager.pushFree f).setTable table) :=
    (h.pushFree hf).congr rfl rfl rfl rfl
  constructor
  · exact hmoved.state
  · obtain ⟨xs, hxs, -⟩ := h.free
    have hchain := hmoved.free xs hxs
    refine ⟨f :: xs, hchain, ?_⟩
    exact List.count_eq_one_of_mem hchain.nodup List.mem_cons_self
  · rw [← hkept.dirty.mem_iff_reaches]
    intro hdirty
    exact absurd (hmoved.state.symm.trans hdirty) (by decide)
  · exact hpage

/-- On a well-formed manager and store, `buff_free_frame` frees the frame or
changes nothing exactly when the frame is pinned and its page can be freed. -/
theorem free_or_keep_iff (h : ListsDocumented manager)
    (hkeys : StackKeys manager) (hstore : manager.store = some store)
    (hat : StoreAt file.image size free) (f : Fin frames) :
    FreesOrKeeps manager file f free ↔
      (manager.state f).IsPinned ∧ CanFree file (manager.index f) free := by
  have hsound : ListsSound manager := listsDocumented_iff.mp h
  have hremove := tableRemove_of_stackKeys hkeys
  obtain ⟨⟨status, file'⟩, hpage⟩ : ∃ result,
    freePage manager.store file (manager.index f) = result := ⟨_, rfl⟩
  have hcall := buffFreeFrame_of_remove hpage hremove
  rw [hstore] at hpage
  constructor
  · rintro ⟨status', manager', file₁, hresult, hfrees, hrefuses, hkeeps⟩
    rw [hcall] at hresult
    cases hresult
    -- a call that fails has released the frame all the same
    have hok : status = .ok := by
      by_contra hstatus
      have hkept := hkeeps hstatus
      exact hsound.pushFree_ne f hkept.freelist hkept.metaframes
    subst hok
    have hpinned : (manager.state f).IsPinned := by
      by_contra hnot
      exact hrefuses hnot rfl
    exact ⟨hpinned, hat.canFree hpage (hfrees hpinned rfl).page⟩
  · rintro ⟨hpinned, hcan⟩
    obtain ⟨file₁, k, hfreed, hk, hlist⟩ :=
      @StoreAt.free_appends file store size free (manager.index f) hat hcan
    rw [hpage] at hfreed
    cases hfreed
    refine ⟨.ok, _, _, hcall, fun _ _ => ?_, fun hnot => absurd hpinned hnot,
      fun hne => absurd rfl hne⟩
    exact hsound.frameFreed hpinned _ ⟨k, hk, hlist⟩

/-! ## Small sessions -/

/-- Frame 0 is not pinned, but freed without an error, and it stays on the
write-back list. -/
theorem free_accepts_unpinned :
    ∃ manager' file', ListsDocumented waitingManager ∧
      waitingManager.state 0 = .unpinnedDirty ∧
      buffFreeFrame waitingManager (reliable (blankStore 2)) (some 0) =
        some (.ok, manager', file') ∧
      manager'.writeback = some 0 ∧
      ¬FreesOrKeeps waitingManager (reliable (blankStore 2)) 0 [] := by
  have hstore := storeAt_blankStore (n := 2) (by decide)
  obtain ⟨image, hfree, -⟩ :=
    hstore.free_page (k := 1) ⟨3⟩ (Nat.le_refl 1) (by decide)
  have hdocumented := listsDocumented_iff.mpr listsSound_waitingManager
  have hkeys : StackKeys waitingManager := rfl
  have hindex : waitingManager.index 0 = Int64.ofNat 1 := rfl
  refine ⟨_, _, hdocumented, rfl,
    buffFreeFrame_of_remove hfree (tableRemove_of_stackKeys hkeys), rfl, ?_⟩
  rw [free_or_keep_iff hdocumented hkeys rfl hstore 0]
  rintro ⟨hpinned, -⟩
  exact absurd hpinned (by decide)

/-- A pinned frame with a page that is in use. -/
theorem free_frees_held :
    FreesOrKeeps heldManager (reliable (blankStore 2)) 0 [] := by
  have hstore := storeAt_blankStore (n := 2) (by decide)
  rw [free_or_keep_iff (listsDocumented_iff.mpr listsSound_heldManager) rfl
    rfl hstore 0]
  refine ⟨Or.inl rfl, by decide, by simp, rfl, rfl, rfl, fun _ => rfl⟩

end NickDB

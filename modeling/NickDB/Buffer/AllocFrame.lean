import NickDB.Buffer.Lists
import NickDB.Store.Allocated

/-!
# Allocating a frame

`buff_alloc_frame` allocates a page in the store and then pins it.  Nothing
gives the page back when the pin fails, and a pin that finds its key returns a
frame that is free.  So the call keeps account of its page only where the pin
takes a frame, or where the allocation fails and has not changed which pages
are allocated.
-/

namespace NickDB

open Linked BufferManager

variable {frames : ℕ}

/-- What a call may return: an error with the same pages allocated, no frame
pinned and nothing written to `*page_frame`, or a pinned frame with a page that
was not allocated. -/
structure AllocKept (manager : BufferManager frames) (size : ℕ)
    (free : List ℕ) (status : Status) (pair : Option (Fin frames × PageIndex))
    (manager' : BufferManager frames) (file' : StoreFile) : Prop where
  refused : status ≠ .ok → SameAllocated file'.image size free ∧
    (∀ f, (manager'.state f).IsPinned → (manager.state f).IsPinned) ∧
    pair = none
  allocated : status = .ok → ∃ f page k, pair = some (f, page) ∧
    NewlyAllocated size free page file'.image k ∧
    manager'.state f = .pinned ∧ manager'.index f = page

/-- The call returns, and keeps account of its page. -/
def AllocKeeps (activation : ℕ) (manager : BufferManager frames)
    (file : StoreFile) (pageFrame : Bool) (size : ℕ) (free : List ℕ) : Prop :=
  ∃ status pair manager' file',
    buffAllocFrame activation manager file pageFrame =
      some (status, pair, manager', file') ∧
    AllocKept manager size free status pair manager' file'

/-- A pin of a page that is there takes a frame: the call does not find its key,
the first free frame is not the last one, and the page can be read by the
transfer number `n`. -/
def CanPin (activation : ℕ) (manager : BufferManager frames)
    (schedule : List Transfer) (n : ℕ) : Prop :=
  ¬manager.Knows activation ∧ Completes schedule n ∧
    ∃ f next, manager.freelist = some f ∧ manager.link f = some next

variable {manager manager' : BufferManager frames} {activation : ℕ}
  {store : Backing} {image : ByteFile UInt8} {schedule : List Transfer}
  {size : ℕ} {free : List ℕ} {status : Status} {page : PageIndex}
  {pair : Option (Fin frames × PageIndex)} {file' : StoreFile}

theorem allocKeeps_iff {file : StoreFile} {pageFrame : Bool}
    (hcall : buffAllocFrame activation manager file pageFrame =
      some (status, pair, manager', file')) :
    AllocKeeps activation manager file pageFrame size free ↔
      AllocKept manager size free status pair manager' file' := by
  constructor
  · rintro ⟨status₂, pair₂, manager₂, file₂, hcall₂, hkept⟩
    rw [hcall] at hcall₂
    cases hcall₂
    exact hkept
  · intro hkept
    exact ⟨status, pair, manager', file', hcall, hkept⟩

/-- A call that fails without touching a frame. -/
theorem allocKept_of_failed (hstatus : status ≠ .ok)
    (hstate : manager'.state = manager.state) :
    AllocKept manager size free status none manager' file' ↔
      SameAllocated file'.image size free := by
  constructor
  · intro hkept
    exact (hkept.refused hstatus).1
  · intro hsame
    refine ⟨fun _ => ⟨hsame, ?_, rfl⟩, fun hok => absurd hok hstatus⟩
    intro f hf
    rwa [← hstate]

/-- The head of the free list is free. -/
theorem ListsDocumented.state_head (h : ListsDocumented manager)
    {f : Fin frames} (hfree : manager.freelist = some f) :
    manager.state f = .unpinned :=
  (listsDocumented_iff.mp h).free.mem_iff_reaches.mpr ⟨[], hfree⟩

/-- Where no frame is allocated, the page that was allocated is lost. -/
theorem not_allocKeeps_of_unpinned {file file₁ : StoreFile}
    {frame : Option (Fin frames)} (hstore : manager.store = some store)
    (hfile : StoreAt file.image size free)
    (halloc : allocPage none manager.store file = (.ok, page, file₁))
    (hpin : PinOutcome activation manager file₁ page status frame manager'
      file') (hstatus : status ≠ .ok) :
    ¬AllocKeeps activation manager file true size free := by
  rw [allocKeeps_iff (buffAllocFrame_of_unpinned halloc hpin hstatus),
    allocKept_of_failed hstatus (hpin.state_of_failed hstatus), hpin.image_eq]
  rw [hstore] at halloc
  exact hfile.not_sameAllocated halloc

/-- A frame that is returned because its key is known is free. -/
theorem not_allocKeeps_of_known {file file₁ : StoreFile} {f : Fin frames}
    (h : ListsDocumented manager)
    (halloc : allocPage none manager.store file = (.ok, page, file₁))
    (hindex : page ≠ metadataIndex) (hfree : manager.freelist = some f)
    (hknown : manager.Knows activation) :
    ¬AllocKeeps activation manager file true size free := by
  rw [allocKeeps_iff (buffAllocFrame_of_pin halloc (.hit hindex hfree hknown))]
  intro hkept
  obtain ⟨g, page, j, hpair, -, hstate, -⟩ := hkept.allocated rfl
  obtain rfl : f = g := congrArg Prod.fst (Option.some.inj hpair)
  exact absurd (hstate.symm.trans (h.state_head hfree)) (by decide)

/-- A pin that takes a frame takes it for the page that was allocated. -/
theorem allocKeeps_of_taken {file file₁ : StoreFile} {f next : Fin frames}
    {dest : Page} {k : ℕ}
    (halloc : allocPage none manager.store file = (.ok, page, file₁))
    (hnew : NewlyAllocated size free page file₁.image k)
    (hindex : page ≠ metadataIndex) (hfree : manager.freelist = some f)
    (hknown : ¬manager.Knows activation)
    (hget : getPage (manager.buffer f) manager.store file₁ page =
      (.ok, dest, file'))
    (hnext : manager.link f = some next) :
    AllocKeeps activation manager file true size free := by
  have hpin := PinOutcome.taken hindex hfree hknown hget hnext
  rw [allocKeeps_iff (buffAllocFrame_of_pin halloc hpin)]
  rw [← hpin.image_eq] at hnew
  refine ⟨fun hne => absurd rfl hne, fun _ => ?_⟩
  refine ⟨f, page, k, rfl, hnew, ?_, ?_⟩
  · rw [state_claim, Function.update_self]
  · rw [index_claim, Function.update_self]

/-- Once the page is allocated, the call keeps account of it exactly when the
pin takes a frame. -/
theorem allocKeeps_of_alloc {file : StoreFile} (h : ListsDocumented manager)
    (hstore : manager.store = some store)
    (hfile : StoreAt file.image size free)
    (halloc : allocPage none (some store) file = (.ok, page, file')) :
    AllocKeeps activation manager file true size free ↔
      CanPin activation manager file'.schedule 0 := by
  obtain ⟨k, hnew⟩ := hfile.newlyAllocated halloc
  obtain ⟨image₁, schedule₁⟩ := file'
  have hpage := hnew
  obtain ⟨rfl, hpos, hlimit, -, hin⟩ := hnew
  rw [← hstore] at halloc
  have hindex : Int64.ofNat k ≠ metadataIndex := pageIndex_ne_zero hpos hlimit
  cases hfree : manager.freelist with
  | none =>
      have hlost := not_allocKeeps_of_unpinned hstore hfile halloc
        (@PinOutcome.noFreeFrames _ activation _ _ _ hindex hfree) (by decide)
      refine iff_of_false hlost ?_
      rintro ⟨-, -, f, -, hf, -⟩
      exact absurd (hfree.symm.trans hf) (by simp)
  | some f =>
    by_cases hknown : manager.Knows activation
    · exact iff_of_false
        (not_allocKeeps_of_known h halloc hindex hfree hknown)
        fun hcan => hcan.1 hknown
    obtain ⟨read, dest, hget, hdone⟩ := @getPage_iff image₁ schedule₁ k
      (manager.buffer f) store hpos hlimit hin
    rw [← hstore] at hget
    by_cases hread : read = .ok
    · subst hread
      cases hnext : manager.link f with
      | none =>
          -- the link of the last free frame is followed
          have hcall : buffAllocFrame activation manager file true = none := by
            rw [buffAllocFrame_of_alloc halloc,
              buffPin_of_new hindex hfree hknown hget,
              if_neg (not_not.mpr rfl), hnext]
            rfl
          refine iff_of_false ?_ ?_
          · rintro ⟨status, pair, manager', file', hcall', -⟩
            exact absurd (hcall.symm.trans hcall') (by simp)
          · rintro ⟨-, -, g, next, hg, hlink⟩
            obtain rfl := Option.some.inj (hfree.symm.trans hg)
            exact absurd (hnext.symm.trans hlink) (by simp)
      | some next =>
          exact iff_of_true
            (allocKeeps_of_taken halloc hpage hindex hfree hknown hget hnext)
            ⟨hknown, hdone.mp rfl, f, next, hfree, hnext⟩
    · have hlost := not_allocKeeps_of_unpinned hstore hfile halloc
        (.unread hindex hfree hknown hget hread) hread
      exact iff_of_false hlost fun hcan => hread (hdone.mpr hcan.2.1)

/-- `buff_alloc_frame` keeps account of its page exactly where all transfers of
the allocation complete and the page can be pinned, or where the allocation
fails and spares the words of the store. -/
theorem alloc_frame_keeps_iff {file : StoreFile} (pageFrame : Bool)
    (h : ListsDocumented manager) (hstore : manager.store = some store)
    (hfile : StoreAt file.image size free) :
    AllocKeeps activation manager file pageFrame size free ↔
      (pageFrame = true →
        (AllocCompletes file.image file.schedule free →
          CanPin activation manager file.schedule (allocTransfers free)) ∧
        (¬AllocCompletes file.image file.schedule free →
          AllocSpares file.image file.schedule free)) := by
  cases pageFrame with
  | false =>
      have hcall : buffAllocFrame activation manager file false =
          some (.err, none, manager, file) := rfl
      rw [allocKeeps_iff hcall, allocKept_of_failed (by decide) rfl]
      exact iff_of_true hfile.same nofun
  | true =>
      rw [forall_prop_of_true rfl]
      obtain ⟨⟨status, page, file₁⟩, halloc⟩ : ∃ result,
        allocPage none (some store) file = result := ⟨_, rfl⟩
      have hattempt := hfile.allocAttempt halloc
      by_cases hok : status = .ok
      · subst hok
        have hdone := (hattempt.ok_iff hfile).mp rfl
        have hcan : CanPin activation manager file₁.schedule 0 ↔
            CanPin activation manager file.schedule (allocTransfers free) := by
          rw [CanPin, CanPin, hattempt.schedule_eq, completes_drop,
            Nat.add_zero]
        rw [allocKeeps_of_alloc h hstore hfile halloc, hcan]
        exact ⟨fun hcan => ⟨fun _ => hcan, fun hnot => absurd hdone hnot⟩,
          fun hboth => hboth.1 hdone⟩
      · have hnot := mt (hattempt.ok_iff hfile).mpr hok
        have halloc' := halloc
        rw [← hstore] at halloc'
        rw [allocKeeps_iff (buffAllocFrame_of_refused halloc' hok),
          allocKept_of_failed hok rfl, hattempt.same_iff hfile hok]
        exact ⟨fun hspares => ⟨fun hdone => absurd hdone hnot, fun _ => hspares⟩,
          fun hboth => hboth.2 hnot⟩

/-- In the small session a page is appended by three transfers. -/
theorem blankStore_allocCompletes (schedule : List Transfer)
    (hmeta : Completes schedule 0) (hzeros : Completes schedule 1)
    (hwrite : Completes schedule 2) :
    AllocCompletes (blankStore 2) schedule [] :=
  ⟨hmeta, (storeAt_blankStore (by decide)).not_size_neg (by decide), hzeros,
    hwrite⟩

/-- In a fresh session a page is allocated and pinned to frame 0. -/
theorem alloc_frame_keeps_small :
    AllocKeeps 0 smallWorld.manager smallWorld.file true 3 [] := by
  have hlists : ListsDocumented smallWorld.manager :=
    listsDocumented_iff.mpr (listsSound_buffCreate _ _)
  refine (alloc_frame_keeps_iff true hlists rfl
    (storeAt_blankStore (by decide))).mpr fun _ => ⟨fun _ => ?_, fun hnot => ?_⟩
  · exact ⟨Bool.false_ne_true, rfl, 0, 1, rfl, rfl⟩
  · exact absurd (blankStore_allocCompletes [] rfl rfl rfl) hnot

/-- In a fresh session page 3 is allocated and then cannot be read; it stays
allocated, and the caller does not learn its number. -/
theorem alloc_frame_leaks_page :
    ListsDocumented smallWorld.manager ∧ StoreAt (blankStore 2) 3 [] ∧
    ∃ status manager' file', buffAllocFrame 0 smallWorld.manager
        ⟨blankStore 2, [.full, .full, .full, .failed]⟩ true =
          some (status, none, manager', file') ∧
      status ≠ .ok ∧ ¬SameAllocated file'.image 3 [] := by
  have hfile : StoreAt (blankStore 2) 3 [] := storeAt_blankStore (by decide)
  refine ⟨listsDocumented_iff.mpr (listsSound_buffCreate _ _), hfile, ?_⟩
  obtain ⟨⟨status, page, image₁, schedule₁⟩, halloc⟩ : ∃ result,
    allocPage none smallWorld.manager.store
      ⟨blankStore 2, [.full, .full, .full, .failed]⟩ = result := ⟨_, rfl⟩
  have hattempt := hfile.allocAttempt halloc
  obtain rfl : status = .ok := (hattempt.ok_iff hfile).mpr
    (blankStore_allocCompletes _ rfl rfl rfl)
  obtain rfl : schedule₁ = [.failed] := hattempt.schedule_eq
  obtain ⟨k, rfl, hpos, hlimit, -, hin⟩ := hfile.newlyAllocated halloc
  obtain ⟨read, dest, hget, hdone⟩ := @getPage_iff image₁ [.failed] k
    (smallWorld.manager.buffer 0) ⟨3⟩ hpos hlimit hin
  have hread : read ≠ .ok := fun hok => absurd (hdone.mp hok) nofun
  have hnew : ¬smallWorld.manager.Knows 0 := Bool.false_ne_true
  have hindex : Int64.ofNat k ≠ metadataIndex := pageIndex_ne_zero hpos hlimit
  have hcall := buffAllocFrame_of_unpinned halloc
    (.unread hindex rfl hnew hget hread) hread
  have hleaked := hfile.not_sameAllocated halloc
  exact ⟨read, _, _, hcall, hread, hleaked⟩

end NickDB

import NickDB.Buffer.Aliasing
import NickDB.Buffer.HeadFrame
import NickDB.Buffer.Versions
import NickDB.Store.Blank
import NickDB.Store.FreedPages

/-!
# Write-back and free pages

A page that is free in the store must not be written back: the write would hit
the link word inside it.  But `buff_free_frame` leaves a frame on the
write-back list whose page it frees, nothing keeps clients from pinning and
marking a page that is not allocated, and the page of zeros of an allocation
may go to a free page.  For clients that free only frames they hold, this
module states exactly which calls keep the targets of the write-back loop
allocated and the store well-formed.
-/

namespace NickDB

open Linked Runs BufferManager

variable {frames : ℕ}

/-- The index names a page of the store that is not free. -/
def Allocated (file : StoreFile) (index : PageIndex) : Prop :=
  ∃ page, 1 ≤ page ∧ indexToOffset index = pageOffset page ∧ InUse page file

/-- The index names a page of the store. -/
def InStore (file : StoreFile) (index : PageIndex) : Prop :=
  ∃ size free page, HoldsStore file size free ∧ page < size ∧
    indexToOffset index = pageOffset page

/-- Every `put_page` of the write-back loop targets a page that is allocated at
that moment. -/
def WritesAllocated (manager : BufferManager frames) (file : StoreFile) :
    Prop :=
  ∀ n f, (writebackAfter manager file n).metaframe = some f →
    Allocated (writebackAfter manager file n).file
      ((writebackAfter manager file n).manager.index f)

/-- The store is well-formed, and a flush would write to allocated pages
only. -/
def FreePagesSafe (w : World frames) : Prop :=
  IsStore w.file ∧ WritesAllocated w.manager w.file

/-- The clients free only frames that they hold. -/
def FreesHeld (s : World frames × Holds frames) : BufferEvent frames → Prop
  | .freeFrame (some f) _ => IsHeld f s.2
  | _ => True

/-- The steps of such clients. -/
abbrev holderStep : World frames × Holds frames → BufferEvent frames →
    World frames × Holds frames → Prop :=
  Guarded clientStep FreesHeld

/-- The zeros of an allocation miss the list of free pages, a frame is unpinned
dirty only for an allocated page, and only frames with a page of the store that
are not on the write-back list are freed. -/
def SparesFreePages (s : World frames × Holds frames) :
    BufferEvent frames → Prop
  | .allocFrame _ pageFrame _ _ => pageFrame = true →
      BlankMisses s.1.file.image
  | .unpin f _ => s.1.manager.state f = .pinnedDirty →
      Allocated s.1.file (s.1.manager.index f)
  | .freeFrame frame _ => ∀ f ∈ frame, s.1.manager.writeback ≠ some f ∧
      InStore s.1.file (s.1.manager.index f)
  | _ => True

/-- What the guard keeps up: only the frame `head` is ever held, and while it is
on the write-back list its page is allocated. -/
structure TargetsKept (head : Fin frames) (manager : BufferManager frames)
    (file : StoreFile) (held : Holds frames) : Prop where
  headOnly : HeadOnly head manager
  held : ∀ f, IsHeld f held → f = head
  offset : ¬manager.offset head < 0
  store : manager.store ≠ none
  isStore : IsStore file
  target : manager.writeback = some head → Allocated file (manager.index head)

variable {head : Fin frames} {manager manager' : BufferManager frames}
  {file file' : StoreFile} {held : Holds frames}

/-! ## Allocated pages -/

theorem Allocated.isStore {index : PageIndex} (h : Allocated file index) :
    IsStore file := by
  obtain ⟨page, -, -, size, free, h, -⟩ := h
  exact ⟨size, free, h⟩

/-- Writing an allocated page keeps the store and the page. -/
theorem Allocated.put {index : PageIndex} (h : Allocated file index)
    (store : Backing) (src : Page) :
    Allocated (putPage src (some store) file index).2 index := by
  obtain ⟨page, hpos, hloc, size, free, h, hpage, hfree⟩ := h
  obtain ⟨hput, hstore⟩ := h.storeAt.put_page store hpos hpage hfree src
  have hindex : indexToOffset index = indexToOffset (Int64.ofNat page) :=
    hloc.trans (indexToOffset_ofNat page).symm
  rw [putPage_congr hindex, h.eq_reliable, hput]
  exact ⟨page, hpos, hloc, size, free, ⟨rfl, hstore⟩, hpage, hfree⟩

/-! ## Allocations -/

/-- An allocation without contents keeps the store well-formed exactly when the
zeros miss the list. -/
theorem HoldsStore.alloc_blank_iff {store : Backing} {size : ℕ}
    {free : List ℕ} {status : Status} {index : PageIndex}
    (h : HoldsStore file size free)
    (hcall : allocPage none (some store) file = (status, index, file')) :
    IsStore file' ↔ BlankMisses file.image := by
  rw [h.eq_reliable] at hcall
  have hstore := h.storeAt
  cases hstore.blankOutcome hcall with
  | @recycled k j rest hj hblank =>
      rw [hstore.blankMisses_iff hj hblank]
      constructor
      · rintro ⟨size', free', h'⟩ hmem
        exact hstore.not_misplaced hmem h'.storeAt
      · intro hmem
        exact ⟨size, rest, rfl, hstore.misplaced hmem⟩
  | negative hblank =>
      exact iff_of_true ⟨size, _, rfl, hstore⟩
        (hstore.blankMisses_of_neg hblank)
  | appended hsize hstore' hpage hlen =>
      exact iff_of_true ⟨size + 1, [], rfl, hstore'⟩ hstore.blankMisses_of_nil
  | full =>
      exact iff_of_true ⟨size, [], rfl, hstore⟩ hstore.blankMisses_of_nil

/-- An allocated page stays allocated. -/
theorem Allocated.alloc {store : Backing} {status : Status}
    {index index' : PageIndex} (h : Allocated file index)
    (hmisses : BlankMisses file.image)
    (hcall : allocPage none (some store) file = (status, index', file')) :
    Allocated file' index := by
  obtain ⟨page, hpos, hloc, size, free, h, hpage, hfree⟩ := h
  rw [h.eq_reliable] at hcall
  refine ⟨page, hpos, hloc, ?_⟩
  have hstore := h.storeAt
  cases hstore.blankOutcome hcall with
  | @recycled k j rest hj hblank =>
      have hmem := (hstore.blankMisses_iff hj hblank).mp hmisses
      exact ⟨size, rest, ⟨rfl, hstore.misplaced hmem⟩, hpage,
        fun hrest => hfree (List.mem_cons_of_mem k hrest)⟩
  | negative hblank => exact ⟨size, _, ⟨rfl, hstore⟩, hpage, hfree⟩
  | appended hsize hstore' hblank hlen =>
      exact ⟨size + 1, [], ⟨rfl, hstore'⟩, by omega, by simp⟩
  | full => exact ⟨size, [], ⟨rfl, hstore⟩, hpage, by simp⟩

/-! ## Pins -/

/-- A pin does not touch the store, and takes a frame only while nothing is on
the write-back list. -/
theorem TargetsKept.pin (h : TargetsKept head manager file held)
    {activation : ℕ} {index : PageIndex} {status : Status}
    {frame : Option (Fin frames)} {held' : Holds frames}
    (hheld : ∀ f, IsHeld f held' → IsHeld f held ∨ frame = some f)
    (hcall : PinOutcome activation manager file index status frame manager'
      file') : TargetsKept head manager' file' held' := by
  have hfile := hcall.file_eq h.isStore.schedule
  have hhead := h.headOnly.pin hcall
  have hheld' : ∀ f, IsHeld f held' → f = head := by
    intro f hf
    rcases hheld f hf with hold | rfl
    · exact h.held f hold
    · exact Option.some.inj
        (hcall.frame_eq.symm.trans h.headOnly.freelist)
  rw [hfile] at hcall ⊢
  cases hcall with
  | metaPage hindex => exact { h with held := hheld' }
  | noFreeFrames hindex hfree => exact { h with held := hheld' }
  | hit hindex hfree hknown => exact { h with held := hheld' }
  | unread hindex hfree hnew hget hstatus =>
      exact ⟨hhead, hheld', h.offset, h.store, h.isStore, h.target⟩
  | @taken f next page file' hindex hfree hnew hget hnext =>
      obtain rfl := Option.some.inj (h.headOnly.freelist.symm.trans hfree)
      have hnone := h.headOnly.writeback_of_link hnext
      refine ⟨hhead, hheld', ?_, h.store, h.isStore, fun hsome => ?_⟩
      · rw [BufferManager.offset, index_claim, Function.update_self]
        exact (getPage_ok_offset hget).2
      · exact absurd (hnone.symm.trans hsome) (by simp)

theorem IsHeld.of_cons {f g : Fin frames} {p : PageIndex}
    (h : IsHeld f ((g, p) :: held)) : IsHeld f held ∨ some g = some f := by
  obtain ⟨q, hq⟩ := h
  rcases List.mem_cons.mp hq with heq | hq'
  · exact Or.inr (congrArg some (Prod.mk.inj heq).1.symm)
  · exact Or.inl ⟨q, hq'⟩

/-! ## Allocated frames -/

theorem HoldsStore.alloc_schedule {store : Backing} {size : ℕ}
    {free : List ℕ} {status : Status} {index : PageIndex}
    (h : HoldsStore file size free)
    (hcall : allocPage none (some store) file = (status, index, file')) :
    file'.schedule = [] := by
  rw [h.eq_reliable] at hcall
  cases h.storeAt.blankOutcome hcall with
  | recycled hj hblank => rfl
  | negative hblank => rfl
  | appended hsize hstore hpage hlen => rfl
  | full => rfl

/-- The allocation of a page alone. -/
theorem TargetsKept.allocPage_iff (h : TargetsKept head manager file held)
    {status : Status} {index : PageIndex}
    (hcall : allocPage none manager.store file = (status, index, file')) :
    file'.schedule = [] ∧ (IsStore file' ↔ BlankMisses file.image) ∧
      (BlankMisses file.image → TargetsKept head manager file' held) := by
  obtain ⟨size, free, hstore⟩ := h.isStore
  obtain ⟨store, hsome⟩ := Option.ne_none_iff_exists'.mp h.store
  rw [hsome] at hcall
  have hiff := hstore.alloc_blank_iff hcall
  refine ⟨hstore.alloc_schedule hcall, hiff, fun hmisses => ?_⟩
  exact
    { h with
      isStore := hiff.mpr hmisses
      target := fun hhead => (h.target hhead).alloc hmisses hcall }

theorem TargetsKept.alloc_iff (h : TargetsKept head manager file held)
    {activation : ℕ} {pageFrame : Bool} {status : Status}
    {pair : Option (Fin frames × PageIndex)}
    (hcall : AllocOutcome activation manager file pageFrame status pair
      manager' file') :
    ((pageFrame = true → BlankMisses file.image) ↔ IsStore file') ∧
      (IsStore file' → TargetsKept head manager' file'
        (holdsAfter held (.allocFrame activation pageFrame status pair))) := by
  cases hcall with
  | noPair => exact ⟨iff_of_true nofun h.isStore, fun _ => h⟩
  | refused halloc hstatus =>
      obtain ⟨-, hiff, hkept⟩ := h.allocPage_iff halloc
      rw [holdsAfter_allocFrame_none]
      exact ⟨by simp [hiff], fun hstore => hkept (hiff.mp hstore)⟩
  | unpinned halloc hpin hstatus =>
      obtain ⟨hschedule, hiff, hkept⟩ := h.allocPage_iff halloc
      obtain rfl := hpin.file_eq hschedule
      rw [holdsAfter_allocFrame_none]
      refine ⟨by simp [hiff], fun hstore => ?_⟩
      exact (hkept (hiff.mp hstore)).pin (fun _ hf => Or.inl hf) hpin
  | @pinned page f manager' file₁ file' halloc hpin =>
      obtain ⟨hschedule, hiff, hkept⟩ := h.allocPage_iff halloc
      obtain rfl := hpin.file_eq hschedule
      refine ⟨by simp [hiff], fun hstore => ?_⟩
      refine (hkept (hiff.mp hstore)).pin (fun g hg => ?_) hpin
      exact hg.of_cons

/-! ## Released frames -/

theorem TargetsKept.released (h : TargetsKept head manager file held)
    (f : Fin frames) : TargetsKept head manager file (release f held) :=
  { h with held := fun g hg => h.held g hg.of_release }

theorem TargetsKept.pushFree (h : TargetsKept head manager file held)
    (hclean : manager.writeback = none) (table : LookupTable) :
    TargetsKept head ((manager.pushFree head).setTable table) file held where
  headOnly := (h.headOnly.pushFree hclean).congr rfl rfl rfl fun _ hf => hf
  held := h.held
  offset := by
    rw [BufferManager.offset, index_setTable, index_pushFree]
    exact h.offset
  store := h.store
  isStore := h.isStore
  target := fun hsome => absurd (hclean.symm.trans hsome) (by simp)

theorem TargetsKept.unpin_iff (h : TargetsKept head manager file held)
    {f : Fin frames} {status : Status}
    (hcall : UnpinOutcome manager f status manager') :
    ((manager.state f = .pinnedDirty → Allocated file (manager.index f)) ↔
        (manager'.writeback = some head →
          Allocated file (manager'.index head))) ∧
      ((manager'.writeback = some head →
          Allocated file (manager'.index head)) →
        TargetsKept head manager' file (release f held)) := by
  have hhead := h.headOnly.unpin hcall
  cases hcall with
  | dirty removed hstate hremove =>
      obtain rfl := h.headOnly.eq_head (Or.inr hstate)
      rw [index_setTable, index_pushDirty]
      refine ⟨⟨fun hall _ => hall hstate, fun hall _ => hall rfl⟩,
        fun hall => ?_⟩
      exact
        { headOnly := hhead
          held := fun g hg => h.held g hg.of_release
          offset := by
            rw [BufferManager.offset, index_setTable, index_pushDirty]
            exact h.offset
          store := h.store
          isStore := h.isStore
          target := by
            rw [index_setTable, index_pushDirty]
            exact hall }
  | clean removed hstate hremove =>
      obtain rfl := h.headOnly.eq_head (Or.inl hstate)
      have hclean := h.headOnly.writeback_of_pinned (Or.inl hstate)
      have hkept := (h.released f).pushFree hclean removed.2
      refine ⟨iff_of_true ?_ hkept.target, fun _ => hkept⟩
      intro hdirty
      rw [hstate] at hdirty
      cases hdirty
  | refused hstate =>
      refine ⟨iff_of_true ?_ h.target, fun _ => h.released f⟩
      intro hdirty
      exact absurd (Or.inr hdirty) hstate

/-! ## Freed frames -/

/-- A page that has been freed is not allocated. -/
theorem Allocated.not_freed {store : Backing} {status : Status}
    {index : PageIndex} (h : Allocated file index)
    (hcall : freePage (some store) file index = (status, file')) :
    ¬Allocated file' index := by
  obtain ⟨page, hpos, hloc, size, free, h, hpage, -⟩ := h
  have hlimit := h.storeAt.lt_pageLimit hpage
  rintro ⟨page', -, hloc', size', free', h', hpage', hfree'⟩
  have heq := hloc.symm.trans hloc'
  rw [pageOffset_inj hlimit (h'.storeAt.lt_pageLimit hpage')] at heq
  subst heq
  have hstore := (h.freed hpos hlimit hloc hcall).2.2 hpage
  rw [h'.mem_unique hstore hlimit] at hfree'
  exact hfree' (mem_requeue_self page free)

theorem TargetsKept.free_iff (h : TargetsKept head manager file held)
    {frame : Option (Fin frames)} {status : Status}
    (hheld : ∀ f ∈ frame, IsHeld f held)
    (hcall : FreeOutcome manager file frame status manager' file') :
    ((∀ f ∈ frame, manager.writeback ≠ some f ∧
        InStore file (manager.index f)) ↔
      IsStore file' ∧ (manager'.writeback = some head →
        Allocated file' (manager'.index head))) ∧
    ((∀ f ∈ frame, manager.writeback ≠ some f ∧
        InStore file (manager.index f)) →
      TargetsKept head manager' file'
        (holdsAfter held (.freeFrame frame status))) := by
  cases hcall with
  | noFrame => exact ⟨iff_of_true nofun ⟨h.isStore, h.target⟩, fun _ => h⟩
  | @freed f status file' removed hfree hremove =>
      obtain rfl := h.held f (hheld f rfl)
      obtain ⟨store, hsome⟩ := Option.ne_none_iff_exists'.mp h.store
      rw [hsome] at hfree
      obtain ⟨k, hk, hloc⟩ := exists_page_of_not_neg h.offset
      obtain ⟨size, free, hstore⟩ := h.isStore
      have hiff := hstore.free_iff hk hloc hfree
      have hinStore : InStore file (manager.index f) ↔ IsStore file' := by
        rw [hiff]
        constructor
        · rintro ⟨size', free', page, hstore', hpage, hloc'⟩
          have heq := hloc.symm.trans hloc'
          rw [pageOffset_inj hk (hstore'.storeAt.lt_pageLimit hpage)] at heq
          subst heq
          rwa [hstore.storeAt.size_unique hstore'.storeAt]
        · intro hlt
          exact ⟨size, free, k, hstore, hlt, hloc⟩
      have htargets : manager.writeback ≠ some f ↔
          (manager.writeback = some f →
            Allocated file' (manager.index f)) := by
        constructor
        · intro hne hsome
          exact absurd hsome hne
        · intro hall hsome
          exact (h.target hsome).not_freed hfree (hall hsome)
      rw [writeback_setTable, writeback_pushFree, index_setTable,
        index_pushFree]
      simp only [Option.mem_def, Option.some.injEq, forall_eq']
      refine ⟨by rw [hinStore, ← htargets, and_comm], ?_⟩
      rintro ⟨hne, hin⟩
      have hclean : manager.writeback = none :=
        h.headOnly.writeback.resolve_right fun hdirty => hne hdirty.1
      have hkept := (h.released f).pushFree hclean removed.2
      exact
        { hkept with
          isStore := hinStore.mp hin
          target := fun hdirty => absurd hdirty hne }

/-! ## Flushes -/

theorem TargetsKept.flush (h : TargetsKept head manager file held)
    (hloop : writebackLoop manager file = some (manager', file')) :
    TargetsKept head manager' file' held := by
  have hsame := same_of_loop manager file hloop
  have hoffset : ¬manager'.offset head < 0 := by
    rw [BufferManager.offset, hsame.index]
    exact h.offset
  have hfile : IsStore file' ∧ (manager.writeback = some head →
      Allocated file' (manager.index head)) := by
    rcases h.headOnly.loop hloop with ⟨hnone, rfl, rfl⟩ | ⟨hhead, rfl⟩
    · exact ⟨h.isStore, h.target⟩
    · obtain ⟨store, hsome⟩ := Option.ne_none_iff_exists'.mp h.store
      rw [hsome]
      have hput := (h.target hhead).put store (manager.buffer head)
      exact ⟨hput.isStore, fun _ => hput⟩
  refine ⟨h.headOnly.flush hloop, h.held, hoffset, ?_, hfile.1, ?_⟩
  · rw [hsame.store]
    exact h.store
  · rw [hsame.writeback, hsame.index]
    exact hfile.2

theorem TargetsKept.mark (h : TargetsKept head manager file held)
    {f : Fin frames} {status : Status}
    (hcall : MarkOutcome manager f status manager') :
    TargetsKept head manager' file held := by
  have hhead := h.headOnly.mark hcall
  cases hcall with
  | clean hstate =>
      refine ⟨hhead, h.held, ?_, h.store, h.isStore, ?_⟩
      · rw [BufferManager.offset, index_setState]
        exact h.offset
      · rw [index_setState]
        exact h.target
  | dirty hstate => exact h
  | refused hstate => exact h

/-! ## Runs -/

theorem TargetsKept.freePagesSafe {w : World frames}
    (h : TargetsKept head w.manager w.file held) : FreePagesSafe w :=
  ⟨h.isStore, h.headOnly.writes_iff (P := fun cursor f =>
    Allocated cursor.file (cursor.manager.index f)) |>.mpr h.target⟩

/-- The first turn of the loop. -/
theorem FreePagesSafe.first {w : World frames} (h : FreePagesSafe w)
    {f : Fin frames} (hf : w.manager.writeback = some f) :
    Allocated w.file (w.manager.index f) :=
  h.2 0 f hf

/-- A pair that is asked for adds at most its frame to the frames held. -/
theorem IsHeld.of_pin {activation : ℕ} {index : PageIndex} {status : Status}
    {frame : Option (Fin frames)} {f : Fin frames}
    (hf : IsHeld f (holdsAfter held (.pin activation index status frame))) :
    IsHeld f held ∨ frame = some f := by
  cases frame with
  | none =>
      rw [holdsAfter_pin_none] at hf
      exact Or.inl hf
  | some g =>
      cases status with
      | ok => exact hf.of_cons
      | _ => exact Or.inl hf

/-- A step leaves the free pages safe exactly when it spares them, and then the
targets of the write-back loop are kept. -/
theorem TargetsKept.step {s t : World frames × Holds frames}
    {event : BufferEvent frames}
    (h : TargetsKept head s.1.manager s.1.file s.2)
    (hcall : holderStep s event t) :
    (FreePagesSafe t.1 ↔ SparesFreePages s event) ∧
      (FreePagesSafe t.1 → TargetsKept head t.1.manager t.1.file t.2) := by
  obtain ⟨⟨manager, file⟩, held⟩ := s
  obtain ⟨⟨manager', file'⟩, held'⟩ := t
  obtain ⟨hholder, hcall, hheld⟩ := hcall
  obtain rfl : held' = holdsAfter held event := hheld
  -- the calls that always spare the free pages
  have hspared : TargetsKept head manager' file' (holdsAfter held event) →
      (FreePagesSafe ⟨manager', file'⟩ ↔ True) ∧
        (FreePagesSafe ⟨manager', file'⟩ →
          TargetsKept head manager' file' (holdsAfter held event)) :=
    fun hkept => ⟨iff_true_intro hkept.freePagesSafe, fun _ => hkept⟩
  cases event with
  | pin activation index status frame =>
      exact hspared (h.pin (fun _ hf => hf.of_pin)
        (buffPin_eq_some_iff.mp hcall))
  | allocFrame activation pageFrame status pair =>
      obtain ⟨hiff, hkept⟩ :=
        h.alloc_iff (allocOutcome_of_buffAllocFrame hcall)
      refine ⟨?_, fun hsafe => hkept hsafe.1⟩
      refine Iff.trans ?_ hiff.symm
      exact ⟨fun hsafe => hsafe.1, fun hstore =>
        (hkept hstore).freePagesSafe⟩
  | write f page =>
      obtain ⟨hmanager, hfile⟩ := hcall
      obtain rfl : manager' = manager.setBuffer f page := hmanager
      obtain rfl : file' = file := hfile
      refine hspared { h with headOnly := ?_ }
      exact h.headOnly.congr rfl rfl rfl fun _ hf => hf
  | mark f status =>
      obtain ⟨hmark, hfile⟩ := hcall
      obtain rfl : file' = file := hfile
      exact hspared (h.mark (markOutcome_of_buffMarkPage hmark))
  | unpin f status =>
      obtain ⟨hunpin, hfile⟩ := hcall
      obtain rfl : file' = file := hfile
      obtain ⟨hiff, hkept⟩ := h.unpin_iff (unpinOutcome_of_buffUnpin hunpin)
      refine ⟨?_, fun hsafe => hkept hsafe.first⟩
      refine Iff.trans ?_ hiff.symm
      exact ⟨fun hsafe => hsafe.first, fun htarget =>
        (hkept htarget).freePagesSafe⟩
  | freeFrame frame status =>
      have hfrees : ∀ f ∈ frame, IsHeld f held := by
        rintro f rfl
        exact hholder
      obtain ⟨hiff, hkept⟩ :=
        h.free_iff hfrees (freeOutcome_of_buffFreeFrame hcall)
      have hspares : FreePagesSafe ⟨manager', file'⟩ ↔
          SparesFreePages (⟨manager, file⟩, held) (.freeFrame frame status) :=
        ⟨fun hsafe => hiff.mpr ⟨hsafe.1, hsafe.first⟩, fun hspares =>
          (hkept hspares).freePagesSafe⟩
      exact ⟨hspares, fun hsafe => hkept (hspares.mp hsafe)⟩
  | flushAll status =>
      obtain ⟨-, hloop⟩ := flushAll_eq_some hcall
      exact hspared (h.flush hloop)

/-- Over a well-formed store, write-back is safe at the start, and it stays
safe along a run exactly when every call of the run spares the free pages. -/
theorem writeback_spares_free_pages_iff {store : Backing}
    {hframes : 0 < frames} {file : StoreFile}
    {events : List (BufferEvent frames)} {t : World frames × Holds frames}
    (hstore : IsStore file) :
    FreePagesSafe (startWorld store hframes file) ∧
    (Run (Ensuring holderStep fun _ _ t => FreePagesSafe t.1)
        (startWorld store hframes file, []) events t ↔
      Run (Guarded holderStep SparesFreePages)
        (startWorld store hframes file, []) events t) := by
  have hstart : TargetsKept ⟨0, hframes⟩ (buffCreate store hframes) file
      [] := by
    refine ⟨headOnly_buffCreate store hframes, nofun, ?_, nofun, hstore,
      nofun⟩
    rw [BufferManager.offset, index_buffCreate]
    decide
  refine ⟨hstart.freePagesSafe, ?_⟩
  refine Run.ensuring_iff_guarded
    (I := fun s : World frames × Holds frames =>
      TargetsKept ⟨0, hframes⟩ s.1.manager s.1.file s.2) ?_ ?_ hstart
  · intro s event t h hcall
    exact (h.step hcall).1
  · intro s event t h hcall
    exact (h.step hcall).2

/-! ## Small sessions -/

theorem isStore_blankStore : IsStore (reliable (blankStore 2)) :=
  ⟨3, [], rfl, storeAt_blankStore (by decide)⟩

theorem allocated_blankStore :
    Allocated (reliable (blankStore 2)) (Int64.ofNat 1) :=
  ⟨1, Nat.le_refl 1, indexToOffset_ofNat 1, 3, [],
    ⟨rfl, storeAt_blankStore (by decide)⟩, by decide, by simp⟩

theorem smallWorld_pin_held :
    holderStep (smallWorld, []) (.pin 0 1 .ok (some 0))
      (pinnedWorld 1, [(0, 1)]) :=
  ⟨trivial, smallWorld_pin (Nat.le_refl 1) (by decide), rfl⟩

theorem pinnedWorld_mark_held :
    holderStep (pinnedWorld 1, [(0, 1)]) (.mark 0 .ok)
      (markedWorld, [(0, 1)]) :=
  ⟨trivial, pinnedWorld_mark, rfl⟩

theorem markedWorld_unpin_held :
    holderStep (markedWorld, [(0, 1)]) (.unpin 0 .ok) (listedWorld, []) :=
  ⟨trivial, markedWorld_unpin, rfl⟩

/-- A page that was marked is pinned once more and freed.  Its frame is still on
the write-back list, so the next flush writes to the free page. -/
theorem writeback_hits_free_page :
    ∃ t, Run holderStep (smallWorld, [])
        [.pin 0 1 .ok (some 0), .mark 0 .ok, .unpin 0 .ok,
          .pin 0 1 .ok (some 0), .freeFrame (some 0) .ok] t ∧
      IsStore t.1.file ∧ ¬WritesAllocated t.1.manager t.1.file := by
  obtain ⟨image', hfree, hstore, -⟩ :=
    (storeAt_blankStore (n := 2) (by decide)).free_page (k := 1) ⟨3⟩
      (Nat.le_refl 1) (by decide)
  have hpin : holderStep (listedWorld, []) (.pin 0 1 .ok (some 0))
      (listedWorld, [(0, 1)]) :=
    ⟨trivial, buffPin_of_hit (by decide) rfl rfl, rfl⟩
  have hfreed := listedWorld_free hfree
  refine ⟨(⟨listedWorld.manager.pushFree 0, reliable image'⟩, []),
    .cons smallWorld_pin_held (.cons pinnedWorld_mark_held
      (.cons markedWorld_unpin_held (.cons hpin
        (.cons ⟨⟨1, List.mem_cons_self⟩, hfreed, rfl⟩ (.nil _))))),
    ⟨3, _, rfl, hstore⟩, fun hwrites => ?_⟩
  refine allocated_blankStore.not_freed hfree ?_
  have htarget := hwrites 0 0 rfl
  rwa [writebackAfter_zero, index_pushFree, index_listedWorld] at htarget

/-- A page that is marked and stays allocated. -/
theorem writeback_hits_allocated_page :
    ∃ t, Run (Ensuring holderStep fun _ _ t => FreePagesSafe t.1)
      (smallWorld, [])
      [.pin 0 1 .ok (some 0), .mark 0 .ok, .unpin 0 .ok] t := by
  have htarget : SparesFreePages (markedWorld, [(0, 1)]) (.unpin 0 .ok) := by
    intro _
    have hindex : markedWorld.manager.index 0 = Int64.ofNat 1 := by
      simp [markedWorld, pinnedWorld]
    simp only [hindex]
    exact allocated_blankStore
  exact ⟨_, (writeback_spares_free_pages_iff isStore_blankStore).2.mpr
    (.cons ⟨trivial, smallWorld_pin_held⟩
      (.cons ⟨trivial, pinnedWorld_mark_held⟩
        (.cons ⟨htarget, markedWorld_unpin_held⟩ (.nil _))))⟩

end NickDB

import NickDB.Buffer.Versions
import NickDB.Store.Extent

/-!
# The capacity of the pool

`buff_pin` is to find a frame for every page that is asked for while a frame is
unpinned, and to report that all frames are in use otherwise.  It never takes
the head off the free list, so the list never runs empty and exhaustion is never
reported.  It copies the meta frame behind the head over the head instead, so
the chain of links shortens by one with each frame that is taken, and the call
that needs the end of the chain follows a null pointer.  The frame at the head
is taken again although it is pinned, and its page is lost.
-/

namespace NickDB

open Runs BufferManager

variable {frames : ℕ}

/-- A frame is pinned that holds the page. -/
def Resident (manager : BufferManager frames) (index : PageIndex) : Prop :=
  ∃ f, (manager.state f).IsPinned ∧ manager.index f = index

/-- What `buff_pin` is to do with a page of the store that is not resident.  A
page that it pins is in the frame it returns, and the pages that were resident
stay so. -/
structure PinServed (s : World frames) (activation : ℕ) (index : PageIndex) :
    Prop where
  usable : (∃ f, s.manager.state f = .unpinned) →
    ∃ f manager file, buffPin activation s.manager s.file index =
      some (.ok, some f, manager, file) ∧
      (manager.state f).IsPinned ∧ manager.index f = index ∧
      ∀ earlier, Resident s.manager earlier → Resident manager earlier
  exhausted : (∀ f, s.manager.state f ≠ .unpinned) →
    buffPin activation s.manager s.file index =
      some (.noFreeFrames, none, s.manager, s.file)
  no_null : buffPin activation s.manager s.file index ≠ none

/-- If the frame is pinned, another pinned frame holds its page, too. -/
def Spared (manager : BufferManager frames) (f : Fin frames) : Prop :=
  (manager.state f).IsPinned →
    ∃ g, g ≠ f ∧ (manager.state g).IsPinned ∧ manager.index g = manager.index f

/-- The call does not find its key in the lookup table, and at the head of the
free list is a frame that has another one behind it and whose page is not lost
with it. -/
def TakesFrame (manager : BufferManager frames) (activation : ℕ) : Prop :=
  ¬manager.Knows activation ∧ ∃ f, manager.freelist = some f ∧
    manager.link f ≠ none ∧ Spared manager f

/-- What holds in every run over an open store: the free list is not empty, the
file holds the pages of the store, and no frame has a page at a negative
offset. -/
structure PoolKept (store : Backing) (manager : BufferManager frames)
    (file : StoreFile) : Prop where
  store_eq : manager.store = some store
  freelist : manager.freelist ≠ none
  counts : ∃ size, CountsPages file size
  offset : ∀ f, ¬manager.offset f < 0

variable {store : Backing} {manager manager' : BufferManager frames}
  {file file' : StoreFile}

theorem poolKept_start {size : ℕ} {hframes : 0 < frames}
    (h : CountsPages file size) :
    PoolKept store (buffCreate store hframes) file where
  store_eq := rfl
  freelist := nofun
  counts := ⟨size, h⟩
  offset := by
    intro f
    rw [BufferManager.offset, index_buffCreate]
    decide

/-! ## One lemma for each call -/

theorem PoolKept.schedule (h : PoolKept store manager file) :
    file.schedule = [] := by
  obtain ⟨size, hcounts⟩ := h.counts
  exact hcounts.schedule

theorem PoolKept.pin (h : PoolKept store manager file) {activation : ℕ}
    {index : PageIndex} {status : Status} {frame : Option (Fin frames)}
    (hcall : PinOutcome activation manager file index status frame manager'
      file') : PoolKept store manager' file' := by
  have hfile := hcall.file_eq h.schedule
  subst hfile
  cases hcall with
  | metaPage hindex => exact h
  | noFreeFrames hindex hfree => exact h
  | hit hindex hfree hknown => exact h
  | unread hindex hfree hnew hget hstatus =>
      exact ⟨h.store_eq, h.freelist, h.counts, h.offset⟩
  | @taken f next page file₁ hindex hfree hnew hget hnext =>
      refine ⟨h.store_eq, h.freelist, h.counts, fun g => ?_⟩
      rw [BufferManager.offset, index_claim]
      by_cases hgf : g = f
      · rw [hgf, Function.update_self]
        exact (getPage_ok_offset hget).2
      · rw [Function.update_of_ne hgf]
        exact h.offset g

theorem PoolKept.allocPage (h : PoolKept store manager file)
    {status : Status} {index : PageIndex}
    (hcall : NickDB.allocPage none manager.store file =
      (status, index, file')) : PoolKept store manager file' := by
  obtain ⟨size, hcounts⟩ := h.counts
  rw [h.store_eq] at hcall
  obtain ⟨size', hleaves⟩ := hcounts.alloc hcall
  exact { h with counts := ⟨size', hleaves.counts⟩ }

theorem PoolKept.alloc (h : PoolKept store manager file) {activation : ℕ}
    {pageFrame : Bool} {status : Status}
    {pair : Option (Fin frames × PageIndex)}
    (hcall : AllocOutcome activation manager file pageFrame status pair
      manager' file') : PoolKept store manager' file' := by
  cases hcall with
  | noPair => exact h
  | refused halloc hstatus => exact h.allocPage halloc
  | unpinned halloc hpin hstatus => exact (h.allocPage halloc).pin hpin
  | pinned halloc hpin => exact (h.allocPage halloc).pin hpin

/-- A frame that is unpinned or freed keeps its page. -/
theorem PoolKept.congr (h : PoolKept store manager file)
    (hstore : manager'.store = manager.store)
    (hfree : manager'.freelist ≠ none)
    (hindex : manager'.index = manager.index) :
    PoolKept store manager' file where
  store_eq := hstore.trans h.store_eq
  freelist := hfree
  counts := h.counts
  offset := by
    intro f
    rw [BufferManager.offset, hindex]
    exact h.offset f

theorem PoolKept.unpin (h : PoolKept store manager file) {f : Fin frames}
    {status : Status} (hcall : UnpinOutcome manager f status manager') :
    PoolKept store manager' file := by
  cases hcall with
  | dirty removed hstate hremove =>
      exact h.congr rfl h.freelist (index_pushDirty manager f)
  | clean removed hstate hremove =>
      exact h.congr rfl (by simp) (index_pushFree manager f)
  | refused hstate => exact h

theorem PoolKept.free (h : PoolKept store manager file)
    {frame : Option (Fin frames)} {status : Status}
    (hcall : FreeOutcome manager file frame status manager' file') :
    PoolKept store manager' file' := by
  cases hcall with
  | noFrame => exact h
  | @freed f status file' removed hfree hremove =>
      obtain ⟨size, hcounts⟩ := h.counts
      rw [h.store_eq] at hfree
      have hleaves := hcounts.free (h.offset f) hfree
      have hkept : PoolKept store manager file' :=
        { h with counts := ⟨size, hleaves.counts⟩ }
      exact hkept.congr rfl (by simp) (index_pushFree manager f)

theorem PoolKept.mark (h : PoolKept store manager file) {f : Fin frames}
    {status : Status} (hcall : MarkOutcome manager f status manager') :
    PoolKept store manager' file := by
  cases hcall with
  | clean hstate =>
      exact h.congr rfl h.freelist (index_setState manager f _)
  | dirty hstate => exact h
  | refused hstate => exact h

/-- The file holds its pages after every turn of the write-back loop. -/
theorem PoolKept.turn (h : PoolKept store manager file) (n : ℕ) :
    ∃ size, CountsPages (writebackAfter manager file n).file size := by
  induction n with
  | zero => exact h.counts
  | succ n ih =>
      obtain ⟨size, hcounts⟩ := ih
      rw [writebackAfter_succ]
      cases hmeta : (writebackAfter manager file n).metaframe with
      | none =>
          rw [Cursor.next_of_none hmeta]
          exact ⟨size, hcounts⟩
      | some f =>
          have hstore := (writebackAfter_same manager file n).store
          rw [Cursor.next_of_some hmeta, Cursor.put, hstore, h.store_eq]
          exact ⟨size, (hcounts.put rfl).counts⟩

theorem PoolKept.flush (h : PoolKept store manager file)
    (hloop : writebackLoop manager file = some (manager', file')) :
    PoolKept store manager' file' := by
  have hsame := same_of_loop manager file hloop
  obtain ⟨-, -, rfl⟩ := (writebackLoop_eq_some_iff ..).mp hloop
  have hkept : PoolKept store manager
      (writebackAfter manager file frames).file :=
    { h with counts := h.turn frames }
  exact hkept.congr hsame.store (hsame.freelist ▸ h.freelist) hsame.index

theorem PoolKept.step {s t : World frames} {event : BufferEvent frames}
    (h : PoolKept store s.manager s.file) (hcall : bufferStep s event t) :
    PoolKept store t.manager t.file := by
  obtain ⟨manager, file⟩ := s
  obtain ⟨manager', file'⟩ := t
  cases event with
  | pin activation index status frame =>
      exact h.pin (buffPin_eq_some_iff.mp hcall)
  | allocFrame activation pageFrame status pair =>
      exact h.alloc (allocOutcome_of_buffAllocFrame hcall)
  | write f page =>
      obtain ⟨hwrite, hfile⟩ := hcall
      obtain rfl : manager' = manager.setBuffer f page := hwrite
      obtain rfl : file' = file := hfile
      exact h.congr rfl h.freelist rfl
  | mark f status =>
      obtain ⟨hmark, hfile⟩ := hcall
      obtain rfl : file' = file := hfile
      exact h.mark (markOutcome_of_buffMarkPage hmark)
  | unpin f status =>
      obtain ⟨hunpin, hfile⟩ := hcall
      obtain rfl : file' = file := hfile
      exact h.unpin (unpinOutcome_of_buffUnpin hunpin)
  | freeFrame frame status =>
      exact h.free (freeOutcome_of_buffFreeFrame hcall)
  | flushAll status => exact h.flush (flushAll_eq_some hcall).2

/-! ## Pins in a reached state -/

/-- A page of the store can be read. -/
theorem CountsPages.getPage_ok {size : ℕ} (h : CountsPages file size)
    {index : PageIndex} (hindex : IsPage file index) (dest : Page) :
    index ≠ metadataIndex ∧
      ∃ page, getPage dest (some store) file index = (.ok, page, file) := by
  obtain ⟨k, hpos, hk, hloc⟩ := h.page_number hindex
  constructor
  · rintro rfl
    exact absurd hindex.1 (by decide)
  · have hin : InFile file.image k := h.page_le hk
    have hread := getPage_page store dest hpos (hk.trans_le h.size_le) hloc hin
    rw [← h.eq_reliable] at hread
    exact ⟨_, hread⟩

/-- A pin of a page of the store finds its key and returns the first frame as
it is, reads the page into that frame, or follows a null pointer. -/
theorem PoolKept.buffPin_cases (h : PoolKept store manager file)
    {index : PageIndex} (hindex : IsPage file index) (activation : ℕ) :
    ∃ f page, manager.freelist = some f ∧
      buffPin activation manager file index =
        if manager.Knows activation then some (.ok, some f, manager, file)
        else (manager.link f).map fun next => (.ok, some f,
          ((manager.learn activation).setBuffer f page).claim f index
            (manager.link next), file) := by
  obtain ⟨f, hfree⟩ := Option.ne_none_iff_exists'.mp h.freelist
  obtain ⟨size, hcounts⟩ := h.counts
  obtain ⟨hmeta, page, hget⟩ :=
    @CountsPages.getPage_ok store file size hcounts index hindex
      (manager.buffer f)
  rw [← h.store_eq] at hget
  refine ⟨f, page, hfree, ?_⟩
  split
  next hknown => exact buffPin_of_hit hmeta hfree hknown
  next hnew =>
    have hpin := buffPin_of_new hmeta hfree hnew hget
    rwa [if_neg (not_not.mpr rfl)] at hpin

/-- What is resident once a frame was taken. -/
theorem resident_claim_iff {f : Fin frames} {index earlier : PageIndex}
    {next : Option (Fin frames)} :
    Resident (manager.claim f index next) earlier ↔
      earlier = index ∨ ∃ g, g ≠ f ∧ (manager.state g).IsPinned ∧
        manager.index g = earlier := by
  simp only [Resident, state_claim, index_claim]
  constructor
  · rintro ⟨g, hpinned, hindex⟩
    by_cases hgf : g = f
    · rw [hgf, Function.update_self] at hindex
      exact Or.inl hindex.symm
    · rw [Function.update_of_ne hgf] at hpinned hindex
      exact Or.inr ⟨g, hgf, hpinned, hindex⟩
  · rintro (rfl | ⟨g, hgf, hpinned, hindex⟩)
    · exact ⟨f, by rw [Function.update_self]; exact Or.inl rfl,
        Function.update_self ..⟩
    · refine ⟨g, ?_, ?_⟩
      · rwa [Function.update_of_ne hgf]
      · rwa [Function.update_of_ne hgf]

/-- The resident pages stay so exactly if the page of the frame that is taken
is not lost. -/
theorem resident_kept_iff {f : Fin frames} {index : PageIndex}
    {next : Option (Fin frames)} (hnew : ¬Resident manager index) :
    (∀ earlier, Resident manager earlier →
        Resident (manager.claim f index next) earlier) ↔
      Spared manager f := by
  constructor
  · intro hkept hpinned
    rcases resident_claim_iff.mp (hkept _ ⟨f, hpinned, rfl⟩) with heq | hother
    · exact absurd ⟨f, hpinned, heq⟩ hnew
    · exact hother
  · rintro hspared earlier ⟨g, hpinned, rfl⟩
    by_cases hgf : g = f
    · subst hgf
      exact resident_claim_iff.mpr (Or.inr (hspared hpinned))
    · exact resident_claim_iff.mpr (Or.inr ⟨g, hgf, hpinned, rfl⟩)

theorem PoolKept.pinServed_iff {s : World frames}
    (h : PoolKept store s.manager s.file) {index : PageIndex}
    (hindex : IsPage s.file index) (activation : ℕ)
    (hnew : ¬Resident s.manager index) :
    PinServed s activation index ↔
      (∃ f, s.manager.state f = .unpinned) ∧
        TakesFrame s.manager activation := by
  obtain ⟨f, page, hfree, hpin⟩ := h.buffPin_cases hindex activation
  have hkept_iff := @resident_kept_iff frames
    ((s.manager.learn activation).setBuffer f page) f index
  constructor
  · intro hserved
    have hunpinned : ∃ f, s.manager.state f = .unpinned := by
      by_contra hnone
      push Not at hnone
      have hexhausted := hserved.exhausted hnone
      rw [hpin] at hexhausted
      split at hexhausted
      next => cases hexhausted
      next =>
        obtain ⟨next, -, hexhausted⟩ := Option.map_eq_some_iff.mp hexhausted
        cases hexhausted
    obtain ⟨g, manager', file', hcall, hpinned, hholds, hkept⟩ :=
      hserved.usable hunpinned
    rw [hpin] at hcall
    split at hcall
    next hknown =>
      -- the manager is as it was, so the page is still not resident
      cases hcall
      exact absurd ⟨f, hpinned, hholds⟩ hnew
    next hunknown =>
      obtain ⟨next, hnext, hcall⟩ := Option.map_eq_some_iff.mp hcall
      cases hcall
      exact ⟨hunpinned, hunknown, f, hfree, by simp [hnext],
        (hkept_iff hnew).mp hkept⟩
  · rintro ⟨hunpinned, hunknown, g, hg, hlink, hspared⟩
    obtain rfl := Option.some.inj (hfree.symm.trans hg)
    obtain ⟨next, hnext⟩ := Option.ne_none_iff_exists'.mp hlink
    rw [if_neg hunknown, hnext, Option.map_some] at hpin
    refine ⟨fun _ => ⟨f, _, _, hpin, ?_, ?_, ?_⟩, ?_, by simp [hpin]⟩
    · rw [state_claim, Function.update_self]
      exact Or.inl rfl
    · rw [index_claim, Function.update_self]
    · exact (hkept_iff hnew).mpr hspared
    · intro hnone
      obtain ⟨g, hg⟩ := hunpinned
      exact absurd hg (hnone g)

/-- A pin that is served while a frame is unpinned. -/
def servedStep (s : World frames) (pin : ℕ × PageIndex) (t : World frames) :
    Prop :=
  PinServed s pin.1 pin.2 ∧ (∃ f, s.manager.state f = .unpinned) ∧
    ∃ frame, bufferStep s (.pin pin.1 pin.2 .ok frame) t

theorem servedStep.resident {s t : World frames} {pin : ℕ × PageIndex}
    (h : servedStep s pin t) :
    Resident t.manager pin.2 ∧
      ∀ earlier, Resident s.manager earlier → Resident t.manager earlier := by
  obtain ⟨hserved, hunpinned, frame, hcall⟩ := h
  obtain ⟨f, manager', file', hpin, hpinned, hholds, hkept⟩ :=
    hserved.usable hunpinned
  have hresult : buffPin pin.1 s.manager s.file pin.2 =
      some (.ok, frame, t.manager, t.file) := hcall
  rw [hpin] at hresult
  obtain ⟨-, rfl, -⟩ : some f = frame ∧ manager' = t.manager ∧
      file' = t.file := by simpa using hresult
  exact ⟨⟨f, hpinned, hholds⟩, hkept⟩

/-- Pages that are pinned one after the other, each by a pin that is served, are
all resident at once. -/
theorem resident_of_served {s t : World frames} {pins : List (ℕ × PageIndex)}
    (hrun : Run servedStep s pins t) :
    (∀ pin ∈ pins, Resident t.manager pin.2) ∧
      ∀ earlier, Resident s.manager earlier → Resident t.manager earlier := by
  induction hrun with
  | nil s => exact ⟨nofun, fun _ h => h⟩
  | @cons s u t pin pins hstep _ ih =>
      obtain ⟨hpinned, hkept⟩ := hstep.resident
      obtain ⟨hothers, hkept'⟩ := ih
      refine ⟨fun other hother => ?_, fun _ h => hkept' _ (hkept _ h)⟩
      rcases List.mem_cons.mp hother with rfl | hother
      · exact hkept' _ hpinned
      · exact hothers other hother

/-- In every state of a run over an open store: a page that is not resident is
pinned while a frame is unpinned, next to all that were resident, and refused
otherwise, exactly when a frame is unpinned and the call takes one whose page is
not lost. -/
theorem pool_capacity_iff {hframes : 0 < frames} {size : ℕ}
    {events : List (BufferEvent frames)} {t : World frames}
    (hstore : CountsPages file size)
    (hrun : Run bufferStep (startWorld store hframes file) events t) :
    ∀ activation index, IsPage t.file index → ¬Resident t.manager index →
      (PinServed t activation index ↔
        (∃ f, t.manager.state f = .unpinned) ∧
          TakesFrame t.manager activation) := by
  have hstart : PoolKept store (startWorld store hframes file).manager
      (startWorld store hframes file).file := poolKept_start hstore
  have hkept : PoolKept store t.manager t.file :=
    hrun.invariant (fun _ _ _ h hcall => PoolKept.step h hcall) hstart
  intro activation index hindex hnew
  exact hkept.pinServed_iff hindex activation hnew

/-! ## Small sessions -/

theorem countsPages_blankStore :
    CountsPages (reliable (blankStore 2)) 3 :=
  HoldsStore.countsPages ⟨rfl, storeAt_blankStore (by decide)⟩

theorem isPage_blankStore : IsPage (reliable (blankStore 2)) 1 := by
  have hsize := (storeAt_blankStore (n := 2) (by decide)).meta_size
  rw [IsPage, hsize]
  decide

/-- A pool of one frame, at the start. -/
def singleWorld : World 1 :=
  startWorld ⟨3⟩ (by decide) (reliable (blankStore 2))

/-- Its first pin follows a null pointer. -/
theorem single_frame_lost :
    IsPage singleWorld.file 1 ∧ ¬Resident singleWorld.manager 1 ∧
      ¬PinServed singleWorld 0 1 := by
  have hkept : PoolKept ⟨3⟩ singleWorld.manager singleWorld.file :=
    poolKept_start countsPages_blankStore
  have hnew : ¬Resident singleWorld.manager 1 := by
    rintro ⟨f, hpinned, -⟩
    exact hpinned.ne_unpinned (state_buffCreate _ _ f)
  refine ⟨isPage_blankStore, hnew, ?_⟩
  rw [hkept.pinServed_iff isPage_blankStore 0 hnew]
  rintro ⟨-, -, f, -, hnext, -⟩
  obtain rfl : f = 0 := Subsingleton.elim f 0
  exact hnext rfl

/-- The first pin in a pool of two frames. -/
theorem first_of_two_served : PinServed smallWorld 0 1 := by
  have hunpinned : ∀ f, smallWorld.manager.state f = .unpinned :=
    fun f => state_buffCreate _ _ f
  have hresident : ¬Resident smallWorld.manager 1 := by
    rintro ⟨f, hpinned, -⟩
    exact hpinned.ne_unpinned (hunpinned f)
  have hnext : smallWorld.manager.link 0 ≠ none := by
    have hlink : smallWorld.manager.link 0 = some 1 := rfl
    simp [hlink]
  have hspared : Spared smallWorld.manager 0 := by
    intro hpinned
    exact absurd (hunpinned 0) hpinned.ne_unpinned
  have hserved := pool_capacity_iff countsPages_blankStore (.nil smallWorld) 0 1
    isPage_blankStore hresident
  exact hserved.mpr
    ⟨⟨0, hunpinned 0⟩, Bool.false_ne_true, 0, rfl, hnext, hspared⟩

end NickDB

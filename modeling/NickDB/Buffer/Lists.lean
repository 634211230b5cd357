import NickDB.Buffer.Session

/-!
# The free list and the write-back list

The header of the buffer manager promises that the free list holds exactly the
unpinned frames and the write-back list exactly the unpinned dirty ones.  This
module says which calls keep the promise.  `buff_unpin` and `buff_mark_page`
always do.  `buff_pin` breaks it whenever it takes a frame, because the frame
stays on the free list; `buff_flush_all` breaks it whenever it writes a page,
because the frame stays on the write-back list; and `buff_free_frame` breaks it
when the frame is not pinned.
-/

namespace NickDB

open Linked Runs BufferManager

variable {frames : ℕ}

/-- The two lists as the header documents them. -/
structure ListsSound (manager : BufferManager frames) : Prop where
  free : Collects manager.link manager.freelist
    {f | manager.state f = .unpinned}
  dirty : Collects manager.link manager.writeback
    {f | manager.state f = .unpinnedDirty}

/-- The lists are sound, and the pinned frames are on neither of them. -/
def ListsDocumented (manager : BufferManager frames) : Prop :=
  ListsSound manager ∧ ∀ f, (manager.state f).IsPinned →
    ¬Reaches manager.link manager.freelist f ∧
      ¬Reaches manager.link manager.writeback f

/-- The call gets as far as taking the first free frame. -/
def Takes (activation : ℕ) (manager : BufferManager frames)
    (file : StoreFile) (index : PageIndex) : Prop :=
  index ≠ metadataIndex ∧ ∃ f, manager.freelist = some f ∧
    ¬manager.Knows activation ∧
    (getPage (manager.buffer f) manager.store file index).1 = .ok

/-- The call takes no frame, frees only pinned frames and writes nothing
back. -/
def SparesLists (s : World frames) : BufferEvent frames → Prop
  | .pin activation index _ _ => ¬Takes activation s.manager s.file index
  | .allocFrame activation pageFrame _ _ => pageFrame = true →
      ∀ page file, allocPage none s.manager.store s.file = (.ok, page, file) →
        ¬Takes activation s.manager file page
  | .write _ _ => True
  | .mark _ _ => True
  | .unpin _ _ => True
  | .freeFrame frame _ => ∀ f ∈ frame, (s.manager.state f).IsPinned
  | .flushAll _ => ∀ f, ¬WritesBack s.manager s.file f

variable {manager manager' : BufferManager frames} {file file' : StoreFile}

/-- A pinned frame is on neither list. -/
theorem ListsSound.not_reaches_of_pinned (h : ListsSound manager)
    {f : Fin frames} (hf : (manager.state f).IsPinned) :
    ¬Reaches manager.link manager.freelist f ∧
      ¬Reaches manager.link manager.writeback f := by
  rw [← h.free.mem_iff_reaches, ← h.dirty.mem_iff_reaches]
  exact ⟨hf.ne_unpinned, hf.ne_unpinnedDirty⟩

theorem listsDocumented_iff :
    ListsDocumented manager ↔ ListsSound manager :=
  and_iff_left_of_imp fun h _ => h.not_reaches_of_pinned

/-- Lists, links and states are all that counts. -/
theorem ListsSound.congr (h : ListsSound manager)
    (hlink : manager'.link = manager.link)
    (hstate : manager'.state = manager.state)
    (hfree : manager'.freelist = manager.freelist)
    (hdirty : manager'.writeback = manager.writeback) :
    ListsSound manager' where
  free := by
    rw [hlink, hstate, hfree]
    exact h.free
  dirty := by
    rw [hlink, hstate, hdirty]
    exact h.dirty

/-! ## The initial manager -/

theorem link_buffCreate (store : Backing) (hframes : 0 < frames)
    (f : Fin frames) :
    (buffCreate store hframes).link f = element frames (f + 1) := by
  simp only [link, buffCreate, element]
  split <;> rfl

/-- The free list of the initial manager has all frames in their order. -/
theorem chain_buffCreate (store : Backing) (hframes : 0 < frames) :
    Chain (buffCreate store hframes).link
      (buffCreate store hframes).freelist (List.finRange frames) := by
  have hhead : (buffCreate store hframes).freelist = element frames 0 := by
    rw [element, dif_pos hframes]
    rfl
  rw [hhead]
  exact chain_finRange (link_buffCreate store hframes)

theorem listsSound_buffCreate (store : Backing) (hframes : 0 < frames) :
    ListsSound (buffCreate store hframes) where
  free := by
    refine ⟨List.finRange frames, chain_buffCreate store hframes,
      List.nodup_finRange frames, fun f => ?_⟩
    exact iff_of_true (List.mem_finRange f) (state_buffCreate store hframes f)
  dirty := collects_none fun f => by simp [state_buffCreate]

/-! ## Calls that keep the lists -/

/-- A pinned frame goes to the free list. -/
theorem ListsSound.pushFree (h : ListsSound manager) {f : Fin frames}
    (hf : (manager.state f).IsPinned) : ListsSound (manager.pushFree f) where
  free := by
    rw [link_pushFree, state_pushFree, freelist_pushFree]
    refine h.free.push hf.ne_unpinned (Function.update_self ..) ?_ ?_
    · intro g hg
      refine Function.update_of_ne ?_ ..
      rintro rfl
      exact hf.ne_unpinned hg
    · intro g
      by_cases hgf : g = f
      · simp [hgf]
      · simp [hgf]
  dirty := by
    rw [link_pushFree, state_pushFree, writeback_pushFree]
    have hne : ∀ g, manager.state g = .unpinnedDirty → g ≠ f := by
      rintro g hg rfl
      exact hf.ne_unpinnedDirty hg
    refine h.dirty.congr (fun g hg => Function.update_of_ne (hne g hg) ..) ?_
    intro g
    by_cases hgf : g = f
    · simp [hgf, hf.ne_unpinnedDirty]
    · simp [hgf]

/-- A pinned frame goes to the write-back list. -/
theorem ListsSound.pushDirty (h : ListsSound manager) {f : Fin frames}
    (hf : (manager.state f).IsPinned) :
    ListsSound (manager.pushDirty f) where
  free := by
    rw [link_pushDirty, state_pushDirty, freelist_pushDirty]
    have hne : ∀ g, manager.state g = .unpinned → g ≠ f := by
      rintro g hg rfl
      exact hf.ne_unpinned hg
    refine h.free.congr (fun g hg => Function.update_of_ne (hne g hg) ..) ?_
    intro g
    by_cases hgf : g = f
    · simp [hgf, hf.ne_unpinned]
    · simp [hgf]
  dirty := by
    rw [link_pushDirty, state_pushDirty, writeback_pushDirty]
    refine h.dirty.push hf.ne_unpinnedDirty (Function.update_self ..) ?_ ?_
    · intro g hg
      refine Function.update_of_ne ?_ ..
      rintro rfl
      exact hf.ne_unpinnedDirty hg
    · intro g
      by_cases hgf : g = f
      · simp [hgf]
      · simp [hgf]

/-- A pinned frame changes between clean and dirty. -/
theorem ListsSound.setState (h : ListsSound manager) {f : Fin frames}
    (hf : (manager.state f).IsPinned) {st : FrameState} (hst : st.IsPinned) :
    ListsSound (manager.setState f st) where
  free := by
    rw [link_setState, state_setState, freelist_setState]
    refine h.free.congr (fun _ _ => rfl) fun g => ?_
    by_cases hgf : g = f
    · simp [hgf, hf.ne_unpinned, hst.ne_unpinned]
    · simp [hgf]
  dirty := by
    rw [link_setState, state_setState, writeback_setState]
    refine h.dirty.congr (fun _ _ => rfl) fun g => ?_
    by_cases hgf : g = f
    · simp [hgf, hf.ne_unpinnedDirty, hst.ne_unpinnedDirty]
    · simp [hgf]

theorem ListsSound.unpin (h : ListsSound manager) {f : Fin frames}
    {status : Status} (hcall : UnpinOutcome manager f status manager') :
    ListsSound manager' := by
  cases hcall with
  | dirty removed hstate hremove =>
      exact (h.pushDirty (Or.inr hstate)).congr rfl rfl rfl rfl
  | clean removed hstate hremove =>
      exact (h.pushFree (Or.inl hstate)).congr rfl rfl rfl rfl
  | refused hstate => exact h

theorem ListsSound.mark (h : ListsSound manager) {f : Fin frames}
    {status : Status} (hcall : MarkOutcome manager f status manager') :
    ListsSound manager' := by
  cases hcall with
  | clean hstate => exact h.setState (Or.inl hstate) (Or.inr rfl)
  | dirty hstate => exact h
  | refused hstate => exact h

/-! ## Calls that may break them -/

/-- A frame that is taken stays on the free list. -/
theorem ListsSound.pin_iff (h : ListsSound manager) {activation : ℕ}
    {index : PageIndex} {status : Status} {frame : Option (Fin frames)}
    (hcall : PinOutcome activation manager file index status frame manager'
      file') :
    ListsSound manager' ↔ ¬Takes activation manager file index := by
  cases hcall with
  | metaPage hindex =>
      exact iff_of_true h fun htakes => htakes.1 hindex
  | noFreeFrames hindex hfree =>
      refine iff_of_true h ?_
      rintro ⟨-, f, hf, -⟩
      exact absurd (hfree.symm.trans hf) (by simp)
  | hit hindex hfree hknown =>
      refine iff_of_true h ?_
      rintro ⟨-, f, -, hnew, -⟩
      exact hnew hknown
  | @unread f status page file' hindex hfree hnew hget hstatus =>
      refine iff_of_true (h.congr rfl rfl rfl rfl) ?_
      rintro ⟨-, g, hg, -, hok⟩
      obtain rfl := Option.some.inj (hfree.symm.trans hg)
      exact hstatus ((congrArg Prod.fst hget).symm.trans hok)
  | @taken f next page file' hindex hfree hnew hget hnext =>
      refine iff_of_false ?_ (not_not.mpr
        ⟨hindex, f, hfree, hnew, congrArg Prod.fst hget⟩)
      intro h'
      have hreaches : Reaches (((manager.learn activation).setBuffer f
          page).claim f index (manager.link next)).link
          (((manager.learn activation).setBuffer f page).claim f index
            (manager.link next)).freelist f := ⟨[], hfree⟩
      rw [← h'.free.mem_iff_reaches] at hreaches
      have hpinned : (((manager.learn activation).setBuffer f page).claim f
          index (manager.link next)).state f = .pinned := by
        rw [state_claim, Function.update_self]
      exact absurd (hpinned.symm.trans hreaches) (by decide)

theorem ListsSound.alloc_iff (h : ListsSound manager) {activation : ℕ}
    {pageFrame : Bool} {status : Status}
    {pair : Option (Fin frames × PageIndex)}
    (hcall : AllocOutcome activation manager file pageFrame status pair
      manager' file') :
    ListsSound manager' ↔ (pageFrame = true → ∀ page file₁,
      allocPage none manager.store file = (.ok, page, file₁) →
        ¬Takes activation manager file₁ page) :=
  hcall.keeps_iff h h.pin_iff

/-- Freeing a frame that is not pinned ties it into a cycle, or leaves it on
the write-back list. -/
theorem ListsSound.not_pushFree (h : ListsSound manager) {f : Fin frames}
    (hf : ¬(manager.state f).IsPinned) : ¬ListsSound (manager.pushFree f) := by
  intro h'
  have hsame : ∀ g, g ≠ f → (manager.pushFree f).link g = manager.link g := by
    intro g hg
    rw [link_pushFree, Function.update_of_ne hg]
  have hlink : (manager.pushFree f).link f = manager.freelist := by
    rw [link_pushFree, Function.update_self]
  rcases FrameState.not_isPinned_iff.mp hf with hstate | hstate
  · have hreaches : Reaches manager.link manager.freelist f :=
      h.free.mem_iff_reaches.mp hstate
    obtain ⟨xs, hchain, -⟩ := h'.free
    refine not_chain_of_reaches_self ?_ hchain
    rw [hlink]
    exact hreaches.edit hsame
  · have hreaches : Reaches manager.link manager.writeback f :=
      h.dirty.mem_iff_reaches.mp hstate
    have hmem := h'.dirty.mem_iff_reaches.mpr (hreaches.edit hsame)
    have hunpinned : (manager.pushFree f).state f = .unpinned := by
      rw [state_pushFree, Function.update_self]
    exact absurd (hunpinned.symm.trans hmem) (by decide)

theorem ListsSound.free_iff (h : ListsSound manager)
    {frame : Option (Fin frames)} {status : Status}
    (hcall : FreeOutcome manager file frame status manager' file') :
    ListsSound manager' ↔ ∀ f ∈ frame, (manager.state f).IsPinned := by
  cases hcall with
  | noFrame => exact iff_of_true h nofun
  | @freed f status file' removed hfree hremove =>
      constructor
      · intro h' g hg
        obtain rfl := Option.mem_some_iff.mp hg
        by_contra hpinned
        exact h.not_pushFree hpinned (h'.congr rfl rfl rfl rfl)
      · intro hall
        exact (h.pushFree (hall f rfl)).congr rfl rfl rfl rfl

/-- A frame that is written back is unpinned, and on the write-back list
only. -/
theorem ListsSound.flush_iff (h : ListsSound manager)
    (hloop : writebackLoop manager file = some (manager', file')) :
    ListsSound manager' ↔ ∀ f, ¬WritesBack manager file f := by
  have hsame := same_of_loop manager file hloop
  constructor
  · intro h' f hwrites
    have hdirty : manager.state f = .unpinnedDirty :=
      h.dirty.mem_iff_reaches.mpr hwrites.reaches
    rcases state_of_loop manager file hloop f with
      ⟨-, hunpinned⟩ | ⟨hnot, -⟩
    · have hreaches := h'.free.mem_iff_reaches.mp hunpinned
      rw [hsame.link, hsame.freelist, ← h.free.mem_iff_reaches] at hreaches
      exact absurd (hdirty.symm.trans hreaches) (by decide)
    · exact hnot hwrites
  · intro hnone
    refine h.congr hsame.link ?_ hsame.freelist hsame.writeback
    funext f
    rcases state_of_loop manager file hloop f with ⟨hwrites, -⟩ | ⟨-, hstate⟩
    · exact absurd hwrites (hnone f)
    · exact hstate

/-! ## Runs -/

/-- A call keeps the lists exactly when it spares them. -/
theorem ListsSound.step_iff {s t : World frames} {event : BufferEvent frames}
    (h : ListsSound s.manager) (hcall : bufferStep s event t) :
    ListsSound t.manager ↔ SparesLists s event := by
  cases event with
  | pin activation index status frame =>
      exact h.pin_iff (buffPin_eq_some_iff.mp hcall)
  | allocFrame activation pageFrame status pair =>
      exact h.alloc_iff (allocOutcome_of_buffAllocFrame hcall)
  | write frame page =>
      refine iff_of_true ?_ trivial
      rw [hcall.1]
      exact h.congr rfl rfl rfl rfl
  | mark frame status =>
      exact iff_of_true (h.mark (markOutcome_of_buffMarkPage hcall.1)) trivial
  | unpin frame status =>
      exact iff_of_true (h.unpin (unpinOutcome_of_buffUnpin hcall.1)) trivial
  | freeFrame frame status =>
      exact h.free_iff (freeOutcome_of_buffFreeFrame hcall)
  | flushAll status => exact h.flush_iff (flushAll_eq_some hcall).2

/-- From the initial manager on, the lists are as documented in every state of
a run exactly when all calls of the run spare them. -/
theorem lists_documented_iff {store : Backing} {hframes : 0 < frames}
    {file : StoreFile} {events : List (BufferEvent frames)}
    {t : World frames} :
    ListsDocumented (startWorld store hframes file).manager ∧
      (Run (Ensuring bufferStep fun _ _ u => ListsDocumented u.manager)
          (startWorld store hframes file) events t ↔
        Run (Guarded bufferStep SparesLists)
          (startWorld store hframes file) events t) := by
  have hstart : ListsSound (startWorld store hframes file).manager :=
    listsSound_buffCreate store hframes
  refine ⟨listsDocumented_iff.mpr hstart, Run.ensuring_iff_guarded
    (I := fun s => ListsSound s.manager) ?_ ?_ hstart⟩
  · intro s event t h hcall
    rw [listsDocumented_iff]
    exact h.step_iff hcall
  · intro s event t _ _ h'
    exact listsDocumented_iff.mp h'

/-- The first pin of a session breaks the free list: frame 0 is pinned and
still its head. -/
theorem lists_broken_by_pin :
    ∃ t, Run bufferStep smallWorld [.pin 0 1 .ok (some 0)] t ∧
      ¬ListsDocumented t.manager := by
  have hpin := smallWorld_pinOutcome (Nat.le_refl 1) (by decide)
  have htakes : Takes 0 smallWorld.manager smallWorld.file 1 :=
    ⟨by decide, 0, rfl, Bool.false_ne_true,
      congrArg Prod.fst (getPage_blankStore (Nat.le_refl 1) (by decide) _)⟩
  have hstart : ListsSound smallWorld.manager := listsSound_buffCreate _ _
  refine ⟨pinnedWorld 1, .cons (buffPin_eq_some_iff.mpr hpin) (.nil _), ?_⟩
  rw [listsDocumented_iff]
  exact fun h => (hstart.pin_iff hpin).mp h htakes

/-- A refused pin and a flush of nothing keep the lists. -/
theorem lists_kept_by_refusals :
    ∃ t, Run (Ensuring bufferStep fun _ _ u => ListsDocumented u.manager)
      smallWorld [.pin 0 0 .metaPage none, .flushAll .ok] t := by
  have hflush : buffFlushAll smallWorld.manager smallWorld.file =
      some (.ok, smallWorld.manager, smallWorld.file) :=
    buffFlushAll_of_empty smallWorld.file rfl
  refine ⟨smallWorld, lists_documented_iff.2.mpr
    (.cons ⟨fun htakes => htakes.1 rfl, rfl⟩
      (.cons ⟨?_, hflush⟩ (.nil smallWorld)))⟩
  rintro f ⟨n, hmeta, -⟩
  rw [metaframe_writebackAfter] at hmeta
  exact absurd (hmeta.symm.trans (walk_none _ n)) (by simp)

end NickDB

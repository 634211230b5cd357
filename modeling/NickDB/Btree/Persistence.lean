import NickDB.Btree.Create
import NickDB.Buffer.Durability

/-!
# What becomes of a new tree

The bytes that `btree_create` writes to its frame reach the store only if the
frame is marked before it is unpinned, and neither `btree_create` nor
`btree_alloc_node` marks it.  From a manager whose lists are sound, the first
free frame has nothing to be written back; this stays so however many pages are
pinned and unpinned, and every flush leaves the frame out.
-/

namespace NickDB

open Linked Runs BufferManager

variable {frames : ℕ} {manager manager' : BufferManager frames}
  {file file' : StoreFile}

/-! ## Frames that stay clean -/

/-- All frames that are to be written back are in `dirty`, and neither the first
free frame nor a frame that is pinned and unmarked is. -/
structure DirtyWithin (dirty : Set (Fin frames))
    (manager : BufferManager frames) : Prop where
  mem : ∀ f, IsDirty manager f → f ∈ dirty
  head : ∀ f, manager.freelist = some f → f ∉ dirty
  pinned : ∀ f, manager.state f = .pinned → f ∉ dirty

variable {dirty : Set (Fin frames)}

theorem DirtyWithin.not_reaches (h : DirtyWithin dirty manager) {f : Fin frames}
    (hf : f ∉ dirty) : ¬Reaches manager.link manager.writeback f :=
  fun hreaches => hf (h.mem f (Or.inr hreaches))

/-- On sound lists the state of a frame says whether it is dirty. -/
theorem ListsSound.isDirty_iff (h : ListsSound manager) {f : Fin frames} :
    IsDirty manager f ↔
      manager.state f = .pinnedDirty ∨ manager.state f = .unpinnedDirty :=
  or_congr_right h.dirty.mem_iff_reaches.symm

/-- Sound lists keep the dirty frames apart from the free ones. -/
theorem ListsSound.dirtyWithin (h : ListsSound manager) :
    DirtyWithin {f | IsDirty manager f} manager where
  mem := fun _ hf => hf
  head := by
    intro f hfree
    have hstate : manager.state f = .unpinned := by
      apply h.free.mem_iff_reaches.mpr
      exact ⟨[], hfree⟩
    rw [Set.mem_ofPred_eq, h.isDirty_iff, hstate]
    decide
  pinned := by
    intro f hstate
    rw [Set.mem_ofPred_eq, h.isDirty_iff, hstate]
    decide

/-- Buffers, pages and keys do not matter. -/
theorem DirtyWithin.congr (h : DirtyWithin dirty manager)
    (hstate : manager'.state = manager.state)
    (hlink : manager'.link = manager.link)
    (hfreelist : manager'.freelist = manager.freelist)
    (hwriteback : manager'.writeback = manager.writeback) :
    DirtyWithin dirty manager' where
  mem := by
    intro f
    rw [IsDirty, hstate, hlink, hwriteback]
    exact h.mem f
  head := by
    rw [hfreelist]
    exact h.head
  pinned := by
    rw [hstate]
    exact h.pinned

/-- A clean frame is taken or freed. -/
theorem DirtyWithin.edit (h : DirtyWithin dirty manager) {f : Fin frames}
    {state : FrameState} {next : Option (Fin frames)} (hf : f ∉ dirty)
    (hclean : state ≠ .pinnedDirty)
    (hstate : manager'.state = Function.update manager.state f state)
    (hlink : manager'.link = Function.update manager.link f next)
    (hfreelist : manager'.freelist = some f)
    (hwriteback : manager'.writeback = manager.writeback) :
    DirtyWithin dirty manager' where
  mem := by
    intro g hg
    have hreaches : Reaches manager'.link manager'.writeback g ↔
        Reaches manager.link manager.writeback g := by
      rw [hlink, hwriteback]
      exact reaches_edit_iff (h.not_reaches hf)
        fun k hk => Function.update_of_ne hk ..
    rw [IsDirty, hstate, hreaches] at hg
    rcases hg with hg | hg
    · by_cases hgf : g = f
      · rw [hgf, Function.update_self] at hg
        exact absurd hg hclean
      · rw [Function.update_of_ne hgf] at hg
        exact h.mem g (Or.inl hg)
    · exact h.mem g (Or.inr hg)
  head := by
    intro g hg
    obtain rfl := Option.some.inj (hfreelist.symm.trans hg)
    exact hf
  pinned := by
    intro g hg
    by_cases hgf : g = f
    · rwa [hgf]
    · rw [hstate, Function.update_of_ne hgf] at hg
      exact h.pinned g hg

/-- A dirty frame goes to the write-back list. -/
theorem DirtyWithin.pushDirty (h : DirtyWithin dirty manager) {f : Fin frames}
    (hf : f ∈ dirty) : DirtyWithin dirty (manager.pushDirty f) where
  mem := by
    intro g hg
    by_cases hgf : g = f
    · rwa [hgf]
    · rw [IsDirty, state_pushDirty, Function.update_of_ne hgf, link_pushDirty,
        writeback_pushDirty, reaches_some_iff, Function.update_self] at hg
      apply h.mem g
      rcases hg with hg | hg | hg
      · exact Or.inl hg
      · exact absurd hg hgf
      · exact Or.inr (hg.of_push (Function.update_self ..)
          (fun z hz => Function.update_of_ne hz ..) fun _ hreaches => hreaches)
  head := h.head
  pinned := by
    intro g hg
    by_cases hgf : g = f
    · rw [hgf, state_pushDirty, Function.update_self] at hg
      cases hg
    · rw [state_pushDirty, Function.update_of_ne hgf] at hg
      exact h.pinned g hg

/-! ## One lemma for each call -/

theorem DirtyWithin.pin (h : DirtyWithin dirty manager) {activation : ℕ}
    {index : PageIndex} {status : Status} {frame : Option (Fin frames)}
    (hcall : PinOutcome activation manager file index status frame manager'
      file') : DirtyWithin dirty manager' := by
  cases hcall with
  | metaPage hindex => exact h
  | noFreeFrames hindex hfree => exact h
  | hit hindex hfree hknown => exact h
  | unread hindex hfree hnew hget hstatus =>
      exact h.congr (by simp) (by simp) (by simp) (by simp)
  | @taken f next page file' hindex hfree hnew hget hnext =>
      have hstate : (((manager.learn activation).setBuffer f page).claim f index
          (manager.link next)).state =
          Function.update manager.state f .pinned := by
        rw [state_claim, state_setBuffer, state_learn]
      have hlink : (((manager.learn activation).setBuffer f page).claim f index
          (manager.link next)).link =
          Function.update manager.link f (manager.link next) := by
        rw [link_claim, link_setBuffer, link_learn]
      exact h.edit (h.head f hfree) (by decide) hstate hlink hfree rfl

theorem DirtyWithin.unpin (h : DirtyWithin dirty manager) {f : Fin frames}
    {status : Status} (hcall : UnpinOutcome manager f status manager') :
    DirtyWithin dirty manager' := by
  cases hcall with
  | clean removed hstate hremove =>
      have hfreed : DirtyWithin dirty (manager.pushFree f) :=
        h.edit (h.pinned f hstate) (by decide) (state_pushFree ..)
          (link_pushFree ..) rfl rfl
      exact hfreed.congr rfl rfl rfl rfl
  | dirty removed hstate hremove =>
      have hf : f ∈ dirty := h.mem f (Or.inl hstate)
      exact (h.pushDirty hf).congr rfl rfl rfl rfl
  | refused hstate => exact h

theorem DirtyWithin.setBuffer (h : DirtyWithin dirty manager) (f : Fin frames)
    (page : Page) : DirtyWithin dirty (manager.setBuffer f page) :=
  h.congr rfl rfl rfl rfl

theorem DirtyWithin.node (h : DirtyWithin dirty manager) {activation : ℕ}
    {type : PageType} {status : Status} {node : Option (Fin frames)}
    (hcall : NodeOutcome activation manager file type status node manager'
      file') : DirtyWithin dirty manager' := by
  have halloc : ∀ {status pair} {manager' : BufferManager frames} {file'},
      AllocOutcome activation manager file true status pair manager' file' →
        DirtyWithin dirty manager' := by
    intro status pair manager' file' halloc
    cases halloc with
    | refused halloc hstatus => exact h
    | unpinned halloc hpin hstatus => exact h.pin hpin
    | pinned halloc hpin => exact h.pin hpin
  cases hcall with
  | badType htype => exact h
  | refused htype hrefused hstatus => exact halloc hrefused
  | made htype hmade => exact (halloc hmade).setBuffer ..

section Create

variable {rootPin leafPin : ℕ} {config config' : BtreeConfig}
  {keySize : UInt64} {comparator : Option KeyComparator} {status : Status}

theorem DirtyWithin.build (h : DirtyWithin dirty manager)
    {nodes : Option (Fin frames × Fin frames)}
    (hcall : BuildOutcome rootPin leafPin config manager file keySize
      comparator status config' nodes manager' file') :
    DirtyWithin dirty manager' := by
  cases hcall with
  | noRoot hroot hstatus => exact h.node hroot
  | noLeaf hroot hleaf hstatus => exact (h.node hroot).node hleaf
  | built hroot hleaf => exact ((h.node hroot).node hleaf).setBuffer ..

/-- `btree_create` marks no frame. -/
theorem DirtyWithin.create (h : DirtyWithin dirty manager)
    (hcall : CreateOutcome rootPin leafPin config manager file keySize
      comparator status config' manager' file') :
    DirtyWithin dirty manager' := by
  cases hcall with
  | failed hbuild => exact h.build hbuild
  | leafKept hbuild hleaf hstatus => exact (h.build hbuild).unpin hleaf
  | unpinned hbuild hleaf hroot =>
      exact ((h.build hbuild).unpin hleaf).unpin hroot

end Create

/-! ## After `btree_create` -/

/-- Pages other than those of the tree are pinned and unpinned. -/
def OtherPages (rootPage leafPage : PageIndex) (s : World frames) :
    BufferEvent frames → Prop
  | .pin _ index _ _ => index ≠ rootPage ∧ index ≠ leafPage
  | .unpin f _ =>
      s.manager.index f ≠ rootPage ∧ s.manager.index f ≠ leafPage
  | _ => False

theorem DirtyWithin.step {rootPage leafPage : PageIndex} {s t : World frames}
    {event : BufferEvent frames} (h : DirtyWithin dirty s.manager)
    (hcall : Guarded bufferStep (OtherPages rootPage leafPage) s event t) :
    DirtyWithin dirty t.manager := by
  obtain ⟨hother, hcall⟩ := hcall
  cases event with
  | pin activation index status frame =>
      exact h.pin (buffPin_eq_some_iff.mp hcall)
  | unpin f status => exact h.unpin (unpinOutcome_of_buffUnpin hcall.1)
  | allocFrame activation pageFrame status pair => exact hother.elim
  | write f page => exact hother.elim
  | mark f status => exact hother.elim
  | freeFrame frame status => exact hother.elim
  | flushAll status => exact hother.elim

variable (rootPin leafPin : ℕ) (config : BtreeConfig)
  (manager : BufferManager frames) (file : StoreFile) (keySize : UInt64)
  (comparator : Option KeyComparator)

/-- `btree_create` returns `STATUS_OK`, and after any pins and unpins of other
pages a flush has the bytes of the root and of the leaf, as they were when
`btree_create` unpinned them, in the store. -/
def TreePersists : Prop :=
  ∃ status config' root leaf built file₁ manager₁,
    btreeBuild rootPin leafPin config manager file keySize comparator =
      some (status, config', some (root, leaf), built, file₁) ∧
    btreeCreate rootPin leafPin config manager file keySize comparator =
      some (.ok, config', manager₁, file₁) ∧
    ∀ events t flushed file₂,
      Run (Guarded bufferStep (OtherPages config'.root (built.index leaf)))
        ⟨manager₁, file₁⟩ events t →
      buffFlushAll t.manager t.file = some (.ok, flushed, file₂) →
        storedPage file₂.image (indexToOffset config'.root) =
          built.buffer root ∧
        storedPage file₂.image (built.offset leaf) = built.buffer leaf

/-- Whatever `btree_create` returns, after any pins and unpins of other pages
neither the frame of the root nor that of the leaf is to be written back. -/
def TreeUnmarked : Prop :=
  ∀ status config' root leaf built file₁ status' config₂ manager₂ file₂,
    btreeBuild rootPin leafPin config manager file keySize comparator =
      some (status, config', some (root, leaf), built, file₁) →
    btreeCreate rootPin leafPin config manager file keySize comparator =
      some (status', config₂, manager₂, file₂) →
    ∀ events t,
      Run (Guarded bufferStep (OtherPages config'.root (built.index leaf)))
        ⟨manager₂, file₂⟩ events t →
      ¬IsDirty t.manager root ∧ ¬IsDirty t.manager leaf

/-- On no input do the root and the leaf persist, and with sound lists no flush
even comes to their frames. -/
theorem tree_never_persists :
    ¬TreePersists rootPin leafPin config manager file keySize comparator ∧
    (ListsSound manager →
      TreeUnmarked rootPin leafPin config manager file keySize comparator) := by
  constructor
  · rintro ⟨status, config', root, leaf, built, file₁, manager₁, -, hcreate, -⟩
    exact (createOutcome_of_btreeCreate hcreate).status_ne_ok rfl
  · intro hsound status config' root leaf built file₁ status' config₂ manager₂
      file₂ hbuild hcreate events t hrun
    have hbuild := buildOutcome_of_btreeBuild hbuild
    have hcreate := createOutcome_of_btreeCreate hcreate
    have hclean : root ∉ {f | IsDirty manager f} :=
      hsound.dirtyWithin.head root hbuild.root_head
    have hend : DirtyWithin {f | IsDirty manager f} t.manager :=
      hrun.invariant (fun _ _ _ h hcall => DirtyWithin.step h hcall)
        (hsound.dirtyWithin.create hcreate)
    have hroot : ¬IsDirty t.manager root := fun h => hclean (hend.mem root h)
    obtain ⟨rfl, -⟩ := hbuild.same_frame
    exact ⟨hroot, hroot⟩

/-! ## A small session -/

/-- With two free frames over a fresh store, page 1 is still blank after the
flush, while its frame had the type of the leaf and a child page. -/
theorem tree_lost :
    ListsSound smallWorld.manager ∧ IsStore (reliable createdImage) ∧
    ¬TreePersists 0 0 emptyConfig smallWorld.manager (reliable createdImage) 8
      none ∧
    ∃ built manager₁ file₁, btreeBuild 0 0 emptyConfig smallWorld.manager
        (reliable createdImage) 8 none =
          some (.ok, ⟨1, 8, .defaultCmpKeys⟩, some (0, 0), built, file₁) ∧
      btreeCreate 0 0 emptyConfig smallWorld.manager (reliable createdImage) 8
        none = some (.err, ⟨1, 8, .defaultCmpKeys⟩, manager₁, file₁) ∧
      buffFlushAll manager₁ file₁ = some (.ok, manager₁, file₁) ∧
      storedPage file₁.image (indexToOffset 1) ≠ built.buffer 0 := by
  obtain ⟨image, hstore, hpage, hbuild⟩ := btreeBuild_small emptyConfig
  have hcreate := btreeCreate_small hbuild
  have hstored : storedPage image (indexToOffset 1) = blankPage :=
    (storedPage_pageOffset (by decide : 1 < pageLimit)).trans hpage
  refine ⟨listsSound_buffCreate _ _, ⟨1, [], rfl, storeAt_createdImage⟩, ?_,
    _, _, _, hbuild, hcreate, buffFlushAll_of_empty _ rfl, ?_⟩
  · rintro ⟨status, config', root, leaf, built, file₁, manager₁, -, hok, -⟩
    rw [hcreate] at hok
    cases hok
  · intro hsame
    have hblank : treePage = blankPage := hsame.symm.trans hstored
    have htype := nodeType_treePage
    rw [hblank] at htype
    exact absurd htype (by decide)

end NickDB

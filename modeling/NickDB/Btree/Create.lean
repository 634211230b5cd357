import NickDB.Btree.Nodes
import NickDB.Buffer.Lists

/-!
# Creating a tree

`btree_create` allocates a root and a leaf, sets the pointer from the root to
the leaf and unpins both.  But the frame that `buff_pin` takes stays at the head
of the free list, so the leaf gets the frame of the root: its type overwrites
the type of the root, and the frame is unpinned twice, which `buff_unpin`
refuses.  The pointer goes to the second place of the list of child pages, where
`btree_insert` does not look for it, and the frame is never marked.
-/

namespace NickDB

open Runs BufferManager

variable {frames : ℕ} {manager manager' : BufferManager frames}
  {file file' : StoreFile}

/-! ## The frame of a new node -/

/-- A node is made in the first free frame, which stays the first. -/
theorem NodeOutcome.head {activation : ℕ} {type : PageType} {f : Fin frames}
    (h : NodeOutcome activation manager file type .ok (some f) manager'
      file') :
    manager.freelist = some f ∧ manager'.freelist = some f := by
  cases h with
  | made htype halloc =>
      cases halloc with
      | pinned _ hpin =>
          have hfree := hpin.frame_eq
          exact ⟨hfree, hpin.freelist_eq.trans hfree⟩

theorem NodeOutcome.type_eq {activation : ℕ} {type : PageType}
    {f : Fin frames}
    (h : NodeOutcome activation manager file type .ok (some f) manager'
      file') : nodeType (manager'.buffer f) = type.code := by
  cases h with
  | made htype halloc =>
      rw [buffer_setBuffer, Function.update_self, nodeType_setNodeType]

/-- The list of child pages does not reach into the type. -/
theorem nodeType_setDirEntry (node : Page) (n : ℕ) (page : PageIndex) :
    nodeType (setDirEntry node n page) = nodeType node := by
  have hbyte : ∀ i : Fin pageSize, (i : ℕ) < 4 →
      setDirEntry node n page i = node i := by
    intro i hi
    exact dif_neg (by omega)
  simp only [nodeType]
  rw [hbyte _ (by decide : 0 < 4), hbyte _ (by decide : 1 < 4),
    hbyte _ (by decide : 2 < 4), hbyte _ (by decide : 3 < 4)]

/-! ## The outcomes of `btree_create` -/

section Create

variable (rootPin leafPin : ℕ) (config : BtreeConfig)
  (manager : BufferManager frames) (file : StoreFile) (keySize : UInt64)
  (comparator : Option KeyComparator)

/-- The outcomes of `btree_create` up to the unpins. -/
inductive BuildOutcome : Status → BtreeConfig →
    Option (Fin frames × Fin frames) → BufferManager frames → StoreFile → Prop
  | noRoot {status : Status} {node : Option (Fin frames)}
      {manager' : BufferManager frames} {file' : StoreFile}
      (hroot : NodeOutcome rootPin manager file .dirPage status node manager'
        file') (hstatus : status ≠ .ok) :
      BuildOutcome status { config with keySize := keySize } none manager'
        file'
  | noLeaf {status : Status} {root : Fin frames} {node : Option (Fin frames)}
      {manager₁ manager' : BufferManager frames} {file₁ file' : StoreFile}
      (hroot : NodeOutcome rootPin manager file .dirPage .ok (some root)
        manager₁ file₁)
      (hleaf : NodeOutcome leafPin manager₁ file₁ .dataPage status node
        manager' file') (hstatus : status ≠ .ok) :
      BuildOutcome status
        { root := manager₁.index root, keySize := keySize
          comparator := comparator.getD .defaultCmpKeys } none manager' file'
  | built {root leaf : Fin frames} {manager₁ manager₂ : BufferManager frames}
      {file₁ file' : StoreFile}
      (hroot : NodeOutcome rootPin manager file .dirPage .ok (some root)
        manager₁ file₁)
      (hleaf : NodeOutcome leafPin manager₁ file₁ .dataPage .ok (some leaf)
        manager₂ file') :
      BuildOutcome .ok
        { root := manager₁.index root, keySize := keySize
          comparator := comparator.getD .defaultCmpKeys } (some (root, leaf))
        (manager₂.setBuffer root
          (setDirEntry (manager₂.buffer root) 1 (manager₂.index leaf))) file'

variable {rootPin leafPin config manager file keySize comparator}

theorem buildOutcome_of_btreeBuild {status : Status} {config' : BtreeConfig}
    {nodes : Option (Fin frames × Fin frames)}
    (h : btreeBuild rootPin leafPin config manager file keySize comparator =
      some (status, config', nodes, manager', file')) :
    BuildOutcome rootPin leafPin config manager file keySize comparator status
      config' nodes manager' file' := by
  unfold btreeBuild at h
  simp only [] at h
  split at h
  next => cases h
  next rootStatus rootFrame manager₁ file₁ hroot =>
    have hroot := nodeOutcome_of_btreeAllocNode hroot
    split at h
    next hrootStatus =>
      cases h
      exact .noRoot hroot hrootStatus
    next hrootStatus =>
      obtain rfl := not_not.mp hrootStatus
      split at h
      next => cases h
      next root =>
        split at h
        next => cases h
        next leafStatus leafFrame manager₂ file₂ hleaf =>
          have hleaf := nodeOutcome_of_btreeAllocNode hleaf
          split at h
          next hleafStatus =>
            cases h
            exact .noLeaf hroot hleaf hleafStatus
          next hleafStatus =>
            obtain rfl := not_not.mp hleafStatus
            split at h
            next => cases h
            next leaf =>
              cases h
              exact .built hroot hleaf

/-- The outcomes of `btree_create`. -/
inductive CreateOutcome (rootPin leafPin : ℕ) (config : BtreeConfig)
    (manager : BufferManager frames) (file : StoreFile) (keySize : UInt64)
    (comparator : Option KeyComparator) :
    Status → BtreeConfig → BufferManager frames → StoreFile → Prop
  | failed {status : Status} {config' : BtreeConfig}
      {manager' : BufferManager frames} {file' : StoreFile}
      (hbuild : BuildOutcome rootPin leafPin config manager file keySize
        comparator status config' none manager' file') :
      CreateOutcome rootPin leafPin config manager file keySize comparator
        status config' manager' file'
  | leafKept {status₁ status : Status} {config' : BtreeConfig}
      {root leaf : Fin frames} {built manager' : BufferManager frames}
      {file' : StoreFile}
      (hbuild : BuildOutcome rootPin leafPin config manager file keySize
        comparator status₁ config' (some (root, leaf)) built file')
      (hleaf : UnpinOutcome built leaf status manager')
      (hstatus : status ≠ .ok) :
      CreateOutcome rootPin leafPin config manager file keySize comparator
        status config' manager' file'
  | unpinned {status₁ status : Status} {config' : BtreeConfig}
      {root leaf : Fin frames} {built manager₁ manager' : BufferManager frames}
      {file' : StoreFile}
      (hbuild : BuildOutcome rootPin leafPin config manager file keySize
        comparator status₁ config' (some (root, leaf)) built file')
      (hleaf : UnpinOutcome built leaf .ok manager₁)
      (hroot : UnpinOutcome manager₁ root status manager') :
      CreateOutcome rootPin leafPin config manager file keySize comparator
        status config' manager' file'

theorem createOutcome_of_btreeCreate {status : Status}
    {config' : BtreeConfig}
    (h : btreeCreate rootPin leafPin config manager file keySize comparator =
      some (status, config', manager', file')) :
    CreateOutcome rootPin leafPin config manager file keySize comparator
      status config' manager' file' := by
  unfold btreeCreate at h
  split at h
  next => cases h
  next hbuild =>
    cases h
    exact .failed (buildOutcome_of_btreeBuild hbuild)
  next root leaf built file₁ hbuild =>
    have hbuild := buildOutcome_of_btreeBuild hbuild
    split at h
    next => cases h
    next leafUnpin manager₁ hleaf =>
      have hleaf := unpinOutcome_of_buffUnpin hleaf
      split at h
      next hstatus =>
        cases h
        exact .leafKept hbuild hleaf hstatus
      next hstatus =>
        obtain rfl := not_not.mp hstatus
        split at h
        next => cases h
        next rootUnpin manager₂ hroot =>
          have hroot := unpinOutcome_of_buffUnpin hroot
          split at h
          next =>
            cases h
            exact .unpinned hbuild hleaf hroot
          next hok =>
            obtain rfl := not_not.mp hok
            cases h
            exact .unpinned hbuild hleaf hroot

/-! ## What it builds -/

/-- Where a node is missing, the call fails. -/
theorem BuildOutcome.status_of_none {status : Status} {config' : BtreeConfig}
    (h : BuildOutcome rootPin leafPin config manager file keySize comparator
      status config' none manager' file') : status ≠ .ok := by
  cases h with
  | noRoot hroot hstatus => exact hstatus
  | noLeaf hroot hleaf hstatus => exact hstatus

/-- The root is in the first free frame. -/
theorem BuildOutcome.root_head {status : Status} {config' : BtreeConfig}
    {root leaf : Fin frames}
    (h : BuildOutcome rootPin leafPin config manager file keySize comparator
      status config' (some (root, leaf)) manager' file') :
    manager.freelist = some root := by
  cases h with
  | built hroot hleaf => exact hroot.head.1

/-- Both nodes are in one frame, which has the type of the leaf. -/
theorem BuildOutcome.same_frame {status : Status} {config' : BtreeConfig}
    {root leaf : Fin frames}
    (h : BuildOutcome rootPin leafPin config manager file keySize comparator
      status config' (some (root, leaf)) manager' file') :
    root = leaf ∧
      nodeType (manager'.buffer root) = PageType.dataPage.code := by
  cases h with
  | built hroot hleaf =>
      have hsame : root = leaf :=
        Option.some.inj (hroot.head.2.symm.trans hleaf.head.1)
      subst hsame
      refine ⟨rfl, ?_⟩
      rw [buffer_setBuffer, Function.update_self, nodeType_setDirEntry,
        hleaf.type_eq]

/-- A frame that was unpinned cannot be unpinned again. -/
theorem UnpinOutcome.not_isPinned {f : Fin frames}
    (h : UnpinOutcome manager f .ok manager') :
    ¬(manager'.state f).IsPinned := by
  cases h with
  | dirty removed hstate hremove =>
      rw [state_setTable, state_pushDirty, Function.update_self]
      decide
  | clean removed hstate hremove =>
      rw [state_setTable, state_pushFree, Function.update_self]
      decide

theorem UnpinOutcome.isPinned {f : Fin frames}
    (h : UnpinOutcome manager f .ok manager') :
    (manager.state f).IsPinned := by
  cases h with
  | dirty removed hstate hremove => exact Or.inr hstate
  | clean removed hstate hremove => exact Or.inl hstate

/-- `btree_create` never succeeds. -/
theorem CreateOutcome.status_ne_ok {status : Status} {config' : BtreeConfig}
    (h : CreateOutcome rootPin leafPin config manager file keySize comparator
      status config' manager' file') : status ≠ .ok := by
  cases h with
  | failed hbuild => exact hbuild.status_of_none
  | leafKept hbuild hleaf hstatus => exact hstatus
  | unpinned hbuild hleaf hroot =>
      rintro rfl
      obtain ⟨rfl, -⟩ := hbuild.same_frame
      exact hleaf.not_isPinned hroot.isPinned

end Create

/-! ## Descending a tree -/

/-- The slots of the first pair of separators, at the end of the node, are
zero. -/
def SeparatorsBlank (keySize : UInt64) (node : Page) : Prop :=
  ∀ i : Fin pageSize, pageSize ≤ i + 2 * keySize.toNat → node i = 0

/-- `btree_insert` can go from the root to the leaf: the frame of the root
belongs to the root of the configuration, and the first entry of its list is
another page, that of the leaf. -/
structure Descendable (config : BtreeConfig) (root leaf : Fin frames)
    (manager : BufferManager frames) (file : StoreFile) : Prop where
  root_page : manager.index root = config.root
  root_type : nodeType (manager.buffer root) = PageType.dirPage.code
  first_entry : dirEntry (manager.buffer root) 0 (by decide) =
    manager.index leaf
  leaf_ne_root : manager.index leaf ≠ config.root
  leaf_ne_metadata : manager.index leaf ≠ metadataIndex
  leaf_type : nodeType (manager.buffer leaf) = PageType.dataPage.code
  separators : SeparatorsBlank config.keySize (manager.buffer root)
  root_allocated : Allocated file config.root
  leaf_allocated : Allocated file (manager.index leaf)

/-- `btree_create` comes to the unpins with a tree that can be descended. -/
def LaysOutTree (rootPin leafPin : ℕ) (config : BtreeConfig)
    (manager : BufferManager frames) (file : StoreFile) (keySize : UInt64)
    (comparator : Option KeyComparator) : Prop :=
  ∃ status config' root leaf manager' file',
    btreeBuild rootPin leafPin config manager file keySize comparator =
      some (status, config', some (root, leaf), manager', file') ∧
    Descendable config' root leaf manager' file'

/-- `btree_create` returns `STATUS_OK` on no input, and on no input are the
frames as it unpins them a tree that can be descended. -/
theorem tree_never_laid_out (rootPin leafPin : ℕ) (config : BtreeConfig)
    (manager : BufferManager frames) (file : StoreFile) (keySize : UInt64)
    (comparator : Option KeyComparator) :
    (∀ config' manager' file',
      btreeCreate rootPin leafPin config manager file keySize comparator ≠
        some (.ok, config', manager', file')) ∧
    ¬LaysOutTree rootPin leafPin config manager file keySize comparator := by
  constructor
  · intro config' manager' file' hcreate
    exact (createOutcome_of_btreeCreate hcreate).status_ne_ok rfl
  · rintro ⟨status, config', root, leaf, manager', file', hbuild, htree⟩
    have hdata := (buildOutcome_of_btreeBuild hbuild).same_frame.2
    rw [htree.root_type] at hdata
    exact absurd hdata (by decide)

/-! ## A small session -/

/-- The part of `btree_create` up to the unpins, from its two nodes. -/
theorem btreeBuild_of_nodes {rootPin leafPin : ℕ} {config : BtreeConfig}
    {keySize : UInt64} {comparator : Option KeyComparator}
    {root leaf : Fin frames} {manager₁ manager₂ : BufferManager frames}
    {file₁ file₂ : StoreFile}
    (hroot : btreeAllocNode rootPin manager file .dirPage =
      some (.ok, some root, manager₁, file₁))
    (hleaf : btreeAllocNode leafPin manager₁ file₁ .dataPage =
      some (.ok, some leaf, manager₂, file₂)) :
    btreeBuild rootPin leafPin config manager file keySize comparator =
      some (.ok,
        { root := manager₁.index root, keySize := keySize
          comparator := comparator.getD .defaultCmpKeys }, some (root, leaf),
        manager₂.setBuffer root
          (setDirEntry (manager₂.buffer root) 1 (manager₂.index leaf)),
        file₂) := by
  unfold btreeBuild
  rw [hroot]
  simp only [ne_eq, not_true_eq_false, if_false]
  rw [hleaf]
  rfl

/-- What `btree_create` writes to the first frame of the small manager. -/
def treePage : Page :=
  setDirEntry (setNodeType (setNodeType blankPage .dirPage) .dataPage) 1 1

theorem setBuffer_setBuffer (f : Fin frames) (first second : Page) :
    (manager.setBuffer f first).setBuffer f second =
      manager.setBuffer f second := by
  simp only [setBuffer, Function.update_idem]

/-- Over a fresh store the root gets page 1, and the leaf page 2, which is never
read: both nodes are in the frame of page 1. -/
theorem btreeBuild_small (config : BtreeConfig) :
    ∃ image, StoreAt image 3 [] ∧ pageAt image 1 = blankPage ∧
      btreeBuild 0 0 config smallWorld.manager (reliable createdImage) 8 none =
        some (.ok, ⟨1, 8, .defaultCmpKeys⟩, some (0, 0),
          (writtenWorld 1 treePage).manager, reliable image) := by
  obtain ⟨image₁, halloc₁, hstore₁, hpage₁, -⟩ :=
    storeAt_createdImage.alloc_appended ⟨3⟩ (by decide) none
  obtain ⟨image₂, halloc₂, hstore₂, -, hsame₂, -⟩ :=
    hstore₁.alloc_appended ⟨3⟩ (by decide) none
  have hblank : pageAt image₂ 1 = blankPage :=
    (hsame₂ 1 (by decide) (by decide)).trans hpage₁
  refine ⟨image₂, hstore₂, hblank, ?_⟩
  have hget := hstore₁.get_page ⟨3⟩ (Nat.le_refl 1) (by decide) blankPage
  rw [hpage₁] at hget
  have hpin := smallWorld_takes (by decide) hget
  have hroot := btreeAllocNode_of_pin (Or.inl rfl : IsNodeType .dirPage)
    halloc₁ hpin
  -- the second pin finds the key of the first
  have hhit : ∀ node : Page, PinOutcome 0
      ((pinnedWorld 1).manager.setBuffer 0 node) (reliable image₂) 2 .ok
      (some 0) ((pinnedWorld 1).manager.setBuffer 0 node)
      (reliable image₂) := by
    intro node
    exact .hit (by decide) rfl rfl
  have hleaf := btreeAllocNode_of_pin (Or.inr rfl : IsNodeType .dataPage)
    halloc₂ (hhit (setNodeType blankPage .dirPage))
  refine (btreeBuild_of_nodes hroot hleaf).trans ?_
  simp only [setBuffer_setBuffer, buffer_setBuffer, Function.update_self]
  rfl

theorem nodeType_treePage : nodeType treePage = PageType.dataPage.code := by
  rw [treePage, nodeType_setDirEntry, nodeType_setNodeType]

/-- The first entry of the list of child pages is still blank. -/
theorem dirEntry_treePage : dirEntry treePage 0 (by decide) = 0 := by
  have hroot : NodeEmpty .dirPage (setNodeType blankPage .dirPage) :=
    (nodeEmpty_setNodeType_iff _ _).mpr tailBlank_blankPage
  have hleaf : NodeEmpty .dataPage
      (setNodeType (setNodeType blankPage .dirPage) .dataPage) :=
    (nodeEmpty_setNodeType_iff _ _).mpr hroot.tail
  exact (Words.load_store_of_disjoint _ _ _ (Or.inl (Nat.le_refl 12))).trans
    (hleaf.dirEntry_eq_zero 0 (by decide))

/-- The second unpin of the frame is refused. -/
theorem btreeCreate_small {config config' : BtreeConfig} {file₁ : StoreFile}
    (hbuild : btreeBuild 0 0 config smallWorld.manager file 8 none =
      some (.ok, config', some (0, 0), (writtenWorld 1 treePage).manager,
        file₁)) :
    btreeCreate 0 0 config smallWorld.manager file 8 none =
      some (.err, config', (writtenWorld 1 treePage).manager.pushFree 0,
        file₁) := by
  have hpinned : (writtenWorld 1 treePage).manager.state 0 = .pinned := rfl
  have hfirst : buffUnpin (writtenWorld 1 treePage).manager 0 =
      some (.ok, (writtenWorld 1 treePage).manager.pushFree 0) :=
    buffUnpin_of_clean hpinned
  have hunpinned : ¬(((writtenWorld 1 treePage).manager.pushFree 0).state
      0).IsPinned := by
    rw [state_pushFree, Function.update_self]
    decide
  unfold btreeCreate
  rw [hbuild]
  simp only [hfirst, buffUnpin_of_not_pinned hunpinned]
  rfl

/-- An empty configuration. -/
def emptyConfig : BtreeConfig := ⟨0, 0, .defaultCmpKeys⟩

/-- With two free frames over a fresh store, the frame of the root ends up with
the type of the leaf, and the first entry of its list is no page. -/
theorem root_overwritten :
    ListsSound smallWorld.manager ∧ IsStore (reliable createdImage) ∧
    (∀ f, smallWorld.manager.state f = .unpinned) ∧
    ¬LaysOutTree 0 0 emptyConfig smallWorld.manager (reliable createdImage) 8
      none ∧
    ∃ built file', btreeBuild 0 0 emptyConfig smallWorld.manager
        (reliable createdImage) 8 none =
          some (.ok, ⟨1, 8, .defaultCmpKeys⟩, some (0, 0), built, file') ∧
      nodeType (built.buffer 0) = PageType.dataPage.code ∧
      dirEntry (built.buffer 0) 0 (by decide) = 0 ∧
      btreeCreate 0 0 emptyConfig smallWorld.manager (reliable createdImage) 8
          none =
        some (.err, ⟨1, 8, .defaultCmpKeys⟩, built.pushFree 0, file') := by
  obtain ⟨image, hstore, hpage, hbuild⟩ := btreeBuild_small emptyConfig
  have hbuffer : (writtenWorld 1 treePage).manager.buffer 0 = treePage := rfl
  refine ⟨listsSound_buffCreate _ _, ⟨1, [], rfl, storeAt_createdImage⟩,
    fun f => state_buffCreate _ _ f, ?_, _, _, hbuild, ?_, ?_,
    btreeCreate_small hbuild⟩
  · rintro ⟨status, config', root, leaf, manager', file', hbuild', htree⟩
    rw [hbuild] at hbuild'
    cases hbuild'
    have htype := htree.root_type
    rw [hbuffer, nodeType_treePage] at htype
    exact absurd htype (by decide)
  · rw [hbuffer, nodeType_treePage]
  · exact dirEntry_treePage

end NickDB

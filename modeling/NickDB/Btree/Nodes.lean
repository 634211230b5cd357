import NickDB.Btree.Model
import NickDB.Buffer.FreePages
import NickDB.Store.BlankAllocation

/-!
# New nodes

A node that `btree_alloc_node` makes is to hold its type and zeros.  The zeros
come from two layers below.  `alloc_page` appends pages of zeros, but hands out
a recycled page with its link word, of which the type covers only the first
half; and where `buff_pin` finds its key in the lookup table it returns the
first free frame with the bytes that frame happens to hold.
-/

namespace NickDB

open Runs BufferManager

variable {frames : ℕ}

/-! ## Nodes -/

/-- All bytes behind the type are zero. -/
def TailBlank (node : Page) : Prop :=
  ∀ i : Fin pageSize, 4 ≤ (i : ℕ) → node i = 0

/-- A node of the given type without children and separators. -/
structure NodeEmpty (type : PageType) (node : Page) : Prop where
  type_eq : nodeType node = type.code
  tail : TailBlank node

@[simp] theorem nodeType_setNodeType (node : Page) (type : PageType) :
    nodeType (setNodeType node type) = type.code := by
  cases type with
  | freePage => rfl
  | dataPage => rfl
  | dirPage => rfl

theorem setNodeType_tail (node : Page) (type : PageType) {i : Fin pageSize}
    (hi : 4 ≤ (i : ℕ)) : setNodeType node type i = node i :=
  if_neg (by omega)

theorem nodeEmpty_setNodeType_iff (node : Page) (type : PageType) :
    NodeEmpty type (setNodeType node type) ↔ TailBlank node := by
  constructor
  · intro h i hi
    rw [← setNodeType_tail node type hi]
    exact h.tail i hi
  · intro h
    refine ⟨nodeType_setNodeType node type, fun i hi => ?_⟩
    rw [setNodeType_tail node type hi]
    exact h i hi

/-- An empty node names no child page. -/
theorem NodeEmpty.dirEntry_eq_zero {type : PageType} {node : Page}
    (h : NodeEmpty type node) (n : ℕ) (hn : 4 + 8 * n + 8 ≤ pageSize) :
    dirEntry node n hn = 0 := by
  have hbytes : ∀ j : Fin 8, node ⟨4 + 8 * n + j, by omega⟩ = 0 := by
    intro j
    refine h.tail _ ?_
    simp only []
    omega
  rw [dirEntry, Words.load]
  simp only [hbytes]
  rfl

theorem tailBlank_blankPage : TailBlank blankPage := fun _ _ => rfl

/-- The link word of a free page that lies below 4 GiB fits into its first four
bytes. -/
theorem tailBlank_linkPage {offset : ByteOffset}
    (h : offset.toUInt64.toNat < 256 ^ 4) : TailBlank (linkPage offset) := by
  intro i hi
  rw [linkPage, Words.store]
  split
  next hword =>
    have hdigit : offset.toUInt64.toNat / 256 ^ ((i : ℕ) - 0) = 0 :=
      Nat.div_eq_of_lt (h.trans_le (Nat.pow_le_pow_right (by decide) hi))
    rw [Words.encode, hdigit]
    rfl
  next => rfl

/-! ## The page of a new node -/

/-- `alloc_page` without contents fails: the store cannot grow, or the second
conversion of the offset of the first free page gives a negative offset. -/
def AllocRefused (file : StoreFile) : Prop :=
  (freelistHead (pageAt file.image 0) = emptyList ∧
      metaSize (pageAt file.image 0) = Int64.ofNat pageLimit) ∨
    (freelistHead (pageAt file.image 0) ≠ emptyList ∧
      indexToOffset (freelistHead (pageAt file.image 0)) < 0)

/-- No page is free, or the first free page holds zeros behind its first four
bytes. -/
def FreshBlank (file : StoreFile) : Prop :=
  freelistHead (pageAt file.image 0) = emptyList ∨
    TailBlank (storedPage file.image (freelistHead (pageAt file.image 0)))

variable {store : Backing} {manager manager' : BufferManager frames}
  {file file' : StoreFile} {size : ℕ} {free : List ℕ}

theorem StoreAt.allocRefused_cons_iff {k : ℕ}
    (h : StoreAt file.image size (k :: free)) :
    AllocRefused file ↔ indexToOffset (pageOffset k) < 0 := by
  have hk : k < pageLimit := h.freelist.limit k List.mem_cons_self
  have hne : pageOffset k ≠ emptyList := pageOffset_ne_emptyList hk
  rw [AllocRefused, h.freelist.head_cons]
  constructor
  · rintro (⟨hempty, -⟩ | ⟨-, hneg⟩)
    · exact absurd hempty hne
    · exact hneg
  · intro hneg
    exact Or.inr ⟨hne, hneg⟩

theorem StoreAt.allocRefused_nil_iff (h : StoreAt file.image size []) :
    AllocRefused file ↔ size = pageLimit := by
  have hhead := h.freelist.head_nil
  rw [AllocRefused, h.meta_size]
  constructor
  · rintro (⟨-, hlimit⟩ | ⟨hne, -⟩)
    · exact pageCount_inj h.size_le (le_refl _) hlimit
    · exact absurd hhead hne
  · rintro rfl
    exact Or.inl ⟨hhead, rfl⟩

theorem StoreAt.freshBlank_cons_iff {k : ℕ}
    (h : StoreAt file.image size (k :: free)) :
    FreshBlank file ↔ TailBlank (pageAt file.image k) := by
  have hk : k < pageLimit := h.freelist.limit k List.mem_cons_self
  rw [FreshBlank, h.freelist.head_cons, storedPage_pageOffset hk]
  exact or_iff_right (pageOffset_ne_emptyList hk)

/-- What `buff_alloc_frame` gets from the store: nothing, or a page that is
blank behind its first four bytes exactly if no page was free or the first free
page was so. -/
theorem HoldsStore.alloc_new {status : Status} {index : PageIndex}
    (h : HoldsStore file size free) (hmisses : BlankMisses file.image)
    (hcall : allocPage none (some store) file = (status, index, file')) :
    (status ≠ .ok ∧ file' = file ∧ AllocRefused file) ∨
    (status = .ok ∧ ¬AllocRefused file ∧ ∃ k size' free',
      HoldsStore file' size' free' ∧ size ≤ size' ∧
        index = Int64.ofNat k ∧ 1 ≤ k ∧ k < size' ∧
        (TailBlank (pageAt file'.image k) ↔ FreshBlank file)) := by
  have hsame := h.eq_reliable
  rw [hsame] at hcall
  have hstore := h.storeAt
  have houtcome : BlankOutcome file.image size free status index file' :=
    hstore.blankOutcome hcall
  cases houtcome with
  | @recycled k j rest hj hblank =>
      have hmem := (hstore.blankMisses_iff hj hblank).mp hmisses
      have hk : k < pageLimit := hstore.freelist.limit k List.mem_cons_self
      have hpos : 1 ≤ k := (hstore.freelist.inFile k List.mem_cons_self).1
      have hkj : k ≠ j := by
        rintro rfl
        exact indexToOffset_pageOffset_ne hpos hk hblank
      have hserved : ¬AllocRefused file := by
        rw [hstore.allocRefused_cons_iff, hblank]
        exact not_pageOffset_neg hj
      refine Or.inr ⟨rfl, hserved, k, size, rest, ⟨rfl, hstore.misplaced hmem⟩,
        le_refl _, rfl, hpos, hstore.free_lt k List.mem_cons_self, ?_⟩
      rw [hstore.freshBlank_cons_iff,
        pageAt_misplacedBlank_of_ne (by omega) hkj]
  | negative hblank =>
      exact Or.inl ⟨by decide, hsame.symm,
        hstore.allocRefused_cons_iff.mpr hblank⟩
  | appended hsize hstore' hpage hlen =>
      have hserved : ¬AllocRefused file := by
        rw [hstore.allocRefused_nil_iff]
        exact hsize.ne
      refine Or.inr ⟨rfl, hserved, size, size + 1, [], ⟨rfl, hstore'⟩,
        by omega, rfl, hstore.size_pos, by omega, ?_⟩
      rw [hpage]
      exact iff_of_true tailBlank_blankPage (Or.inl hstore.freelist.head_nil)
  | full =>
      refine Or.inl ⟨by decide, hsame.symm, hstore.allocRefused_nil_iff.mpr ?_⟩
      by_contra hne
      obtain ⟨image', hresult, -⟩ := hstore.alloc_appended store
        (lt_of_le_of_ne hstore.size_le hne) none
      rw [hresult] at hcall
      cases hcall

/-! ## The frame of a new node -/

/-- The bytes behind the type that the call of `buff_pin` at this place on the
stack finds are zero: those of the first free frame if it knows its key, those
of the page it has been given otherwise. -/
def FindsBlank (activation : ℕ) (manager : BufferManager frames)
    (file : StoreFile) : Prop :=
  ∀ f, manager.freelist = some f →
    (manager.Knows activation ∧ TailBlank (manager.buffer f)) ∨
      (¬manager.Knows activation ∧ FreshBlank file)

theorem findsBlank_iff {activation : ℕ} {f : Fin frames}
    (hfree : manager.freelist = some f) :
    FindsBlank activation manager file ↔
      ((manager.Knows activation ∧ TailBlank (manager.buffer f)) ∨
        (¬manager.Knows activation ∧ FreshBlank file)) := by
  simp only [FindsBlank, hfree, Option.some.injEq, forall_eq']

/-- What holds along a run: the store is well-formed, and the frames belong to
pages of the store. -/
structure NodesKept (store : Backing) (manager : BufferManager frames)
    (file : StoreFile) : Prop where
  store_eq : manager.store = some store
  isStore : IsStore file
  pages : ∀ f, InStore file (manager.index f)

theorem InStore.mono {index : PageIndex} {size' : ℕ} {free' : List ℕ}
    (h : InStore file index) (hstore : HoldsStore file size free)
    (hstore' : HoldsStore file' size' free') (hle : size ≤ size') :
    InStore file' index := by
  obtain ⟨size₀, free₀, page, h₀, hpage, hloc⟩ := h
  obtain rfl := h₀.storeAt.size_unique hstore.storeAt
  exact ⟨size', free', page, hstore', hpage.trans_le hle, hloc⟩

/-- The store has changed, and has not become smaller. -/
theorem NodesKept.grown (h : NodesKept store manager file) {size' : ℕ}
    {free' : List ℕ} (hstore : HoldsStore file size free)
    (hstore' : HoldsStore file' size' free') (hle : size ≤ size') :
    NodesKept store manager file' :=
  ⟨h.store_eq, ⟨size', free', hstore'⟩,
    fun f => (h.pages f).mono hstore hstore' hle⟩

/-- A pin of a page of the store. -/
theorem NodesKept.pin (h : NodesKept store manager file) {activation k : ℕ}
    {status : Status} {frame : Option (Fin frames)}
    (hstore : HoldsStore file size free) (hpos : 1 ≤ k) (hk : k < size)
    (hcall : PinOutcome activation manager file (Int64.ofNat k) status frame
      manager' file') :
    NodesKept store manager' file' ∧
      ((status ≠ .ok ∧ manager.freelist = none) ∨
        ∃ f, status = .ok ∧ frame = some f ∧ manager.freelist = some f ∧
          (manager'.buffer f = if manager.Knows activation
            then manager.buffer f else pageAt file.image k)) := by
  have hlimit := hstore.storeAt.lt_pageLimit hk
  have hread : ∀ dest, getPage dest manager.store file (Int64.ofNat k) =
      (.ok, pageAt file.image k, file) := by
    intro dest
    rw [h.store_eq, hstore.eq_reliable]
    exact hstore.storeAt.get_page store hpos hk dest
  have hfile := hcall.file_eq hstore.schedule
  subst hfile
  cases hcall with
  | metaPage hindex => exact absurd hindex (pageIndex_ne_zero hpos hlimit)
  | noFreeFrames hindex hfree => exact ⟨h, Or.inl ⟨by decide, hfree⟩⟩
  | @hit f hindex hfree hknown =>
      refine ⟨h, Or.inr ⟨f, rfl, rfl, hfree, ?_⟩⟩
      rw [if_pos hknown]
  | unread hindex hfree hnew hget hstatus =>
      rw [hread] at hget
      exact absurd (congrArg Prod.fst hget).symm hstatus
  | @taken f next page file₁ hindex hfree hnew hget hnext =>
      rw [hread] at hget
      obtain ⟨-, rfl, -⟩ := by simpa only [Prod.mk.injEq] using hget
      refine ⟨⟨h.store_eq, h.isStore, fun g => ?_⟩,
        Or.inr ⟨f, rfl, rfl, hfree, ?_⟩⟩
      · rw [index_claim]
        by_cases hgf : g = f
        · rw [hgf, Function.update_self]
          exact ⟨size, free, k, hstore, hk, indexToOffset_ofNat k⟩
        · rw [Function.update_of_ne hgf]
          exact h.pages g
      · rw [if_neg hnew, buffer_claim, buffer_setBuffer, Function.update_self]

/-- A frame that is allocated is blank behind the type exactly if the call finds
it so, unless the call fails. -/
theorem NodesKept.alloc (h : NodesKept store manager file) {activation : ℕ}
    {status : Status} {pair : Option (Fin frames × PageIndex)}
    (hmisses : BlankMisses file.image)
    (hcall : AllocOutcome activation manager file true status pair manager'
      file') :
    NodesKept store manager' file' ∧
      ((status ≠ .ok ∧
          (AllocRefused file ∨ FindsBlank activation manager file)) ∨
        ∃ f page, status = .ok ∧ pair = some (f, page) ∧
          ¬AllocRefused file ∧ (TailBlank (manager'.buffer f) ↔
            FindsBlank activation manager file)) := by
  obtain ⟨size, free, hstore⟩ := h.isStore
  cases hcall with
  | refused halloc hstatus =>
      rw [h.store_eq] at halloc
      rcases hstore.alloc_new hmisses halloc with
        ⟨-, rfl, hrefused⟩ | ⟨hok, -⟩
      · exact ⟨h, Or.inl ⟨hstatus, Or.inl hrefused⟩⟩
      · exact absurd hok hstatus
  | unpinned halloc hpin hstatus =>
      rw [h.store_eq] at halloc
      rcases hstore.alloc_new hmisses halloc with
        ⟨hnot, -⟩ | ⟨-, -, k, size', free', hstore', hle, rfl, hpos, hk, -⟩
      · exact absurd rfl hnot
      · obtain ⟨h', hpinned⟩ :=
          (h.grown hstore hstore' hle).pin hstore' hpos hk hpin
        refine ⟨h', Or.inl ⟨hstatus, Or.inr ?_⟩⟩
        rcases hpinned with ⟨-, hnone⟩ | ⟨f, hok, -⟩
        · intro f hf
          exact absurd (hnone.symm.trans hf) (by simp)
        · exact absurd hok hstatus
  | @pinned page f manager' file₁ file' halloc hpin =>
      rw [h.store_eq] at halloc
      rcases hstore.alloc_new hmisses halloc with
        ⟨hnot, -⟩ | ⟨-, hserved, k, size', free', hstore', hle, rfl, hpos, hk,
          hblank⟩
      · exact absurd rfl hnot
      · obtain ⟨h', hpinned⟩ :=
          (h.grown hstore hstore' hle).pin hstore' hpos hk hpin
        refine ⟨h', Or.inr ⟨f, _, rfl, rfl, hserved, ?_⟩⟩
        rcases hpinned with ⟨hnot, -⟩ | ⟨g, -, hg, hfree, hbuffer⟩
        · exact absurd rfl hnot
        · obtain rfl := Option.some.inj hg
          rw [findsBlank_iff hfree, hbuffer]
          by_cases hknown : manager.Knows activation
          · simp [hknown]
          · simp [hknown, hblank]

/-! ## Calls on nodes -/

/-- One call on nodes with its result, or bytes that a client writes to one. -/
inductive NodeEvent (frames : ℕ)
  | allocNode (activation : ℕ) (type : PageType) (status : Status)
      (node : Option (Fin frames))
  | freeNode (node : Option (Fin frames)) (status : Status)
  | write (node : Fin frames) (bytes : Page)

/-- The call of an event takes `s` to `t`. -/
def nodeStep (s : World frames) (event : NodeEvent frames)
    (t : World frames) : Prop :=
  match event with
  | .allocNode activation type status node =>
      btreeAllocNode activation s.manager s.file type =
        some (status, node, t.manager, t.file)
  | .freeNode node status =>
      btreeFreeNode s.manager s.file node = some (status, t.manager, t.file)
  | .write node bytes =>
      t.manager = s.manager.setBuffer node bytes ∧ t.file = s.file

/-- `btree_alloc_node` accepts the type. -/
def IsNodeType (type : PageType) : Prop := type = .dirPage ∨ type = .dataPage

theorem not_isNodeType_iff {type : PageType} :
    ¬IsNodeType type ↔ type ≠ .dirPage ∧ type ≠ .dataPage := not_or

/-- A node that is returned is empty. -/
def MakesEmpty (_ : World frames) (event : NodeEvent frames)
    (t : World frames) : Prop :=
  match event with
  | .allocNode _ type .ok node =>
      ∃ f, node = some f ∧ NodeEmpty type (t.manager.buffer f)
  | _ => True

/-- The page of zeros of an allocation misses the free pages. -/
def ZerosMiss (s : World frames) : NodeEvent frames → Prop
  | .allocNode _ type _ _ => IsNodeType type → BlankMisses s.file.image
  | _ => True

/-- The call of `btree_alloc_node` fails, or finds zeros. -/
def StartsBlank (s : World frames) : NodeEvent frames → Prop
  | .allocNode activation type _ _ =>
      IsNodeType type → ¬AllocRefused s.file →
        FindsBlank activation s.manager s.file
  | _ => True

/-- The outcomes of `btree_alloc_node`. -/
inductive NodeOutcome (activation : ℕ) (manager : BufferManager frames)
    (file : StoreFile) (type : PageType) :
    Status → Option (Fin frames) → BufferManager frames → StoreFile → Prop
  | badType (htype : ¬IsNodeType type) :
      NodeOutcome activation manager file type .err none manager file
  | refused {status : Status} {pair : Option (Fin frames × PageIndex)}
      {manager' : BufferManager frames} {file' : StoreFile}
      (htype : IsNodeType type)
      (halloc : AllocOutcome activation manager file true status pair manager'
        file') (hstatus : status ≠ .ok) :
      NodeOutcome activation manager file type status none manager' file'
  | made {f : Fin frames} {page : PageIndex}
      {manager' : BufferManager frames} {file' : StoreFile}
      (htype : IsNodeType type)
      (halloc : AllocOutcome activation manager file true .ok (some (f, page))
        manager' file') :
      NodeOutcome activation manager file type .ok (some f)
        (manager'.setBuffer f (setNodeType (manager'.buffer f) type)) file'

theorem nodeOutcome_of_btreeAllocNode {activation : ℕ} {type : PageType}
    {status : Status} {node : Option (Fin frames)}
    (h : btreeAllocNode activation manager file type =
      some (status, node, manager', file')) :
    NodeOutcome activation manager file type status node manager' file' := by
  by_cases htype : IsNodeType type
  · have hguard := fun hrefused => not_isNodeType_iff.mpr hrefused htype
    unfold btreeAllocNode at h
    rw [if_neg hguard] at h
    split at h
    next => cases h
    next frameAlloc pageFrame manager₁ file₁ hcall =>
      have halloc := allocOutcome_of_buffAllocFrame hcall
      split at h
      next hstatus =>
        cases h
        exact .refused htype halloc hstatus
      next hstatus =>
        obtain rfl := not_not.mp hstatus
        split at h
        next => cases h
        next f page =>
          cases h
          exact .made htype halloc
  · rw [btreeAllocNode, if_pos (not_isNodeType_iff.mp htype)] at h
    cases h
    exact .badType htype

theorem NodesKept.setBuffer (h : NodesKept store manager file)
    (f : Fin frames) (page : Page) :
    NodesKept store (manager.setBuffer f page) file :=
  ⟨h.store_eq, h.isStore, h.pages⟩

theorem NodesKept.allocNode (h : NodesKept store manager file)
    {activation : ℕ} {type : PageType} {status : Status}
    {node : Option (Fin frames)}
    (hmisses : IsNodeType type → BlankMisses file.image)
    (hcall : NodeOutcome activation manager file type status node manager'
      file') :
    NodesKept store manager' file' ∧
      ((status = .ok →
          ∃ f, node = some f ∧ NodeEmpty type (manager'.buffer f)) ↔
        (IsNodeType type → ¬AllocRefused file →
          FindsBlank activation manager file)) := by
  cases hcall with
  | badType htype =>
      exact ⟨h, iff_of_true nofun fun hvalid => absurd hvalid htype⟩
  | refused htype halloc hstatus =>
      obtain ⟨h', hfailed⟩ := h.alloc (hmisses htype) halloc
      refine ⟨h', iff_of_true (fun hok => absurd hok hstatus) ?_⟩
      rcases hfailed with ⟨-, hrefused | hfinds⟩ | ⟨f, page, hok, -⟩
      · exact fun _ hserved => absurd hrefused hserved
      · exact fun _ _ => hfinds
      · exact absurd hok hstatus
  | @made f page manager' file' htype halloc =>
      obtain ⟨h', hmade⟩ := h.alloc (hmisses htype) halloc
      refine ⟨h'.setBuffer f _, ?_⟩
      rcases hmade with ⟨hnot, -⟩ | ⟨g, page', -, hpair, hserved, hblank⟩
      · exact absurd rfl hnot
      obtain ⟨rfl, -⟩ := Prod.mk.inj (Option.some.inj hpair)
      rw [← hblank, buffer_setBuffer]
      constructor
      · intro hall _ _
        obtain ⟨g, hg, hempty⟩ := hall rfl
        obtain rfl := Option.some.inj hg
        rw [Function.update_self, nodeEmpty_setNodeType_iff] at hempty
        exact hempty
      · intro hfinds _
        refine ⟨f, rfl, ?_⟩
        rw [Function.update_self, nodeEmpty_setNodeType_iff]
        exact hfinds htype hserved

/-- Freeing a node, whatever page its frame belongs to. -/
theorem NodesKept.freeNode (h : NodesKept store manager file)
    {node : Option (Fin frames)} {status : Status}
    (hcall : btreeFreeNode manager file node =
      some (status, manager', file')) : NodesKept store manager' file' := by
  cases node with
  | none =>
      cases hcall
      exact h
  | some f =>
      have houtcome : FreeOutcome manager file (some f) status manager' file' :=
        freeOutcome_of_buffFreeFrame hcall
      cases houtcome with
      | freed removed hfree hremove =>
          obtain ⟨size, free, page, hstore, hpage, hloc⟩ := h.pages f
          have hlimit := hstore.storeAt.lt_pageLimit hpage
          have hkept : ∃ free', HoldsStore file' size free' := by
            rw [h.store_eq] at hfree
            rcases Nat.eq_zero_or_pos page with rfl | hpos
            · have hzero := freePage_zero store file (hloc.trans pageOffset_zero)
              rw [hzero] at hfree
              cases hfree
              exact ⟨free, hstore⟩
            · exact ⟨_, (hstore.freed hpos hlimit hloc hfree).2.2 hpage⟩
          obtain ⟨free', hstore'⟩ := hkept
          refine ⟨h.store_eq, ⟨size, free', hstore'⟩, fun g => ?_⟩
          rw [index_setTable, index_pushFree]
          exact (h.pages g).mono hstore hstore' (le_refl size)

/-! ## Runs -/

/-- The calls on nodes whose zeros miss the free pages. -/
abbrev missingStep : World frames → NodeEvent frames → World frames → Prop :=
  Guarded nodeStep ZerosMiss

theorem NodesKept.step {s t : World frames} {event : NodeEvent frames}
    (h : NodesKept store s.manager s.file) (hcall : missingStep s event t) :
    NodesKept store t.manager t.file ∧
      (MakesEmpty s event t ↔ StartsBlank s event) := by
  obtain ⟨manager, file⟩ := s
  obtain ⟨manager', file'⟩ := t
  obtain ⟨hmisses, hcall⟩ := hcall
  cases event with
  | allocNode activation type status node =>
      obtain ⟨h', hiff⟩ :=
        h.allocNode hmisses (nodeOutcome_of_btreeAllocNode hcall)
      refine ⟨h', Iff.trans ?_ hiff⟩
      by_cases hok : status = .ok
      · subst hok
        exact ⟨fun hempty _ => hempty, fun hall => hall rfl⟩
      · refine iff_of_true ?_ fun hall => absurd hall hok
        cases status with
        | ok => exact absurd rfl hok
        | _ => trivial
  | freeNode node status => exact ⟨h.freeNode hcall, Iff.rfl⟩
  | write f page =>
      obtain ⟨hwrite, hfile⟩ := hcall
      obtain rfl : manager' = manager.setBuffer f page := hwrite
      obtain rfl : file' = file := hfile
      exact ⟨h.setBuffer f page, Iff.rfl⟩

/-- On a well-formed manager and store, all nodes that are allocated along a run
whose zeros miss the free pages are empty exactly when each call of
`btree_alloc_node` starts from zeros. -/
theorem new_nodes_empty_iff {s t : World frames}
    {events : List (NodeEvent frames)}
    (hstart : NodesKept store s.manager s.file) :
    Run (Ensuring missingStep MakesEmpty) s events t ↔
      Run (Guarded missingStep StartsBlank) s events t := by
  refine Run.ensuring_iff_guarded
    (I := fun s : World frames => NodesKept store s.manager s.file) ?_ ?_
    hstart
  · intro s event t h hcall
    exact (h.step hcall).2
  · intro s event t h hcall _
    exact (h.step hcall).1

/-! ## Small sessions -/

theorem nodesKept_start {hframes : 0 < frames} (h : IsStore file) :
    NodesKept store (buffCreate store hframes) file where
  store_eq := rfl
  isStore := h
  pages := by
    obtain ⟨size, free, hstore⟩ := h
    intro f
    rw [index_buffCreate]
    exact ⟨size, free, 0, hstore, hstore.storeAt.size_pos, indexToOffset_zero⟩

/-- A node on a page that was allocated and read into the first frame. -/
theorem btreeAllocNode_of_pin {activation : ℕ} {type : PageType}
    {page : PageIndex} {f : Fin frames} {file₁ : StoreFile}
    (htype : IsNodeType type)
    (halloc : allocPage none manager.store file = (.ok, page, file₁))
    (hpin : PinOutcome activation manager file₁ page .ok (some f) manager'
      file') :
    btreeAllocNode activation manager file type =
      some (.ok, some f, manager'.setBuffer f
        (setNodeType (manager'.buffer f) type), file') := by
  have hguard := fun hrefused => not_isNodeType_iff.mpr hrefused htype
  rw [btreeAllocNode, if_neg hguard, buffAllocFrame_of_pin halloc hpin]
  rfl

/-- A first node on the recycled page 1 starts from what that page holds. -/
theorem nodeStep_recycled {image : ByteFile UInt8} {rest : List ℕ}
    (h : StoreAt image size (1 :: rest)) :
    ∃ t : World 2, nodeStep ⟨smallWorld.manager, reliable image⟩
        (.allocNode 0 .dirPage .ok (some 0)) t ∧
      t.manager.buffer 0 = setNodeType (pageAt image 1) .dirPage := by
  have hin : InFile image 1 := h.inFile (h.free_lt 1 List.mem_cons_self)
  have halloc := allocPage_recycled_blank ⟨3⟩ h.inFile_zero (by decide) hin
    h.freelist.head_cons (by decide : 4096 < pageLimit) (by decide)
  have hpage : pageAt (misplacedBlank image 1 4096) 1 = pageAt image 1 :=
    pageAt_misplacedBlank_of_ne (by decide) (by decide)
  have hin' : InFile (misplacedBlank image 1 4096) 1 :=
    hin.writePage.writePage
  have hget := getPage_page ⟨3⟩ blankPage (Nat.le_refl 1) (by decide)
    (indexToOffset_ofNat 1) hin'
  rw [hpage] at hget
  have hcall := btreeAllocNode_of_pin (Or.inl rfl : IsNodeType .dirPage)
    halloc (smallWorld_takes (by decide) hget)
  exact ⟨⟨_, _⟩, hcall, by simp⟩

/-- Two frames over a store whose only page besides the metadata page is
free. -/
def recyclingWorld : World 2 := ⟨smallWorld.manager, reliable oneFreePage⟩

/-- The first node is made on a recycled page and holds a part of its link
word. -/
theorem new_node_not_empty :
    NodesKept ⟨3⟩ recyclingWorld.manager recyclingWorld.file ∧
    ∃ t, Run nodeStep recyclingWorld [.allocNode 0 .dirPage .ok (some 0)] t ∧
      ¬NodeEmpty .dirPage (t.manager.buffer 0) := by
  have hstore := storeAt_oneFreePage
  obtain ⟨t, hstep, hbuffer⟩ := nodeStep_recycled hstore
  refine ⟨nodesKept_start ⟨2, [1], rfl, hstore⟩, t,
    .cons hstep (.nil t), ?_⟩
  rw [hbuffer, pageAt_oneFreePage, nodeEmpty_setNodeType_iff]
  intro hblank
  exact absurd (hblank ⟨4, by decide⟩ (Nat.le_refl 4)) (by decide)

/-- The store after two pages were allocated and then freed, in this order. -/
def twoFreePages : ByteFile UInt8 :=
  writePage (writePage (writePage oneFreePage 1 (linkPage (pageOffset 2))) 2
    (linkPage (-1))) 0
    (setTail (setHead (setSize blankPage 3) (pageOffset 1)) (pageOffset 2))

theorem pageAt_twoFreePages :
    pageAt twoFreePages 1 = linkPage (pageOffset 2) := by
  rw [twoFreePages, pageAt_two_writes _ _ (by decide) (by decide),
    pageAt_writePage_self]

theorem storeAt_twoFreePages : StoreAt twoFreePages 3 [1, 2] where
  size_pos := by decide
  size_le := by decide
  meta_size := by
    rw [twoFreePages, pageAt_writePage_self, metaSize_setTail,
      metaSize_setHead, metaSize_setSize]
    rfl
  in_file := by
    rw [twoFreePages, length_writePage, length_writePage]
    exact (Nat.le_max_right _ _).trans (Nat.le_max_left _ _)
  freelist := by
    have h : FreelistAt oneFreePage ([] ++ [1]) emptyList :=
      storeAt_oneFreePage.freelist
    have hlen : oneFreePage.length ≤ twoFreePages.length :=
      (oneFreePage.length_le_length_write (pageSize * 1) _).trans
        (length_le_two_writes 2 _ _)
    have hin : InFile twoFreePages 2 := (inFile_writePage_self 2 _).writePage
    refine h.enqueue hlen (by decide) (by decide) hin ?_ ?_ ?_ ?_ nofun
    · rw [twoFreePages, pageAt_writePage_self, freelistHead_setTail,
        freelistHead_setHead, h.head_cons]
    · rw [twoFreePages, pageAt_writePage_self, freelistTail_setTail]
    · rw [twoFreePages, pageAt_writePage_of_ne _ (by decide),
        pageAt_writePage_self, linkWord_linkPage]
    · intro _
      rw [pageAt_twoFreePages, linkWord_linkPage]
  free_lt := by decide

/-- The first node over a fresh store, and on a recycled page whose link word
fits into the bytes of the type. -/
theorem new_node_empty :
    (∃ t, Run (Ensuring missingStep MakesEmpty)
      (⟨smallWorld.manager, reliable createdImage⟩ : World 2)
      [.allocNode 0 .dirPage .ok (some 0)] t) ∧
    ∃ t, Run (Ensuring missingStep MakesEmpty)
      (⟨smallWorld.manager, reliable twoFreePages⟩ : World 2)
      [.allocNode 0 .dirPage .ok (some 0)] t := by
  have hnew : ¬smallWorld.manager.Knows 0 := Bool.false_ne_true
  constructor
  · obtain ⟨image', halloc, hstore', -⟩ :=
      storeAt_createdImage.alloc_appended ⟨3⟩ (by decide) none
    have hhead : freelistHead (pageAt createdImage 0) = emptyList :=
      storeAt_createdImage.freelist.head_nil
    have hget := hstore'.get_page ⟨3⟩ (Nat.le_refl 1) (by decide) blankPage
    have hpin := smallWorld_takes (by decide) hget
    have hcall := btreeAllocNode_of_pin (Or.inl rfl : IsNodeType .dirPage)
      halloc hpin
    have hstart : NodesKept ⟨3⟩ smallWorld.manager (reliable createdImage) :=
      nodesKept_start ⟨1, [], rfl, storeAt_createdImage⟩
    obtain ⟨t, hstep⟩ : ∃ t : World 2,
        nodeStep ⟨smallWorld.manager, reliable createdImage⟩
          (.allocNode 0 .dirPage .ok (some 0)) t := ⟨⟨_, _⟩, hcall⟩
    refine ⟨t, (new_nodes_empty_iff hstart).mpr
      (.cons ⟨?_, ?_, hstep⟩ (.nil t))⟩
    · intro _ _ f _
      exact Or.inr ⟨hnew, Or.inl hhead⟩
    · intro _
      exact storeAt_createdImage.blankMisses_of_nil
  · have hstore := storeAt_twoFreePages
    have hstart : NodesKept ⟨3⟩ smallWorld.manager (reliable twoFreePages) :=
      nodesKept_start ⟨3, [1, 2], rfl, hstore⟩
    have hblank : FreshBlank (reliable twoFreePages) := by
      apply (StoreAt.freshBlank_cons_iff (h := hstore)).mpr
      have hpage : pageAt (reliable twoFreePages).image 1 =
          linkPage (pageOffset 2) := pageAt_twoFreePages
      rw [hpage]
      exact tailBlank_linkPage (by decide)
    obtain ⟨t, hstep, -⟩ := nodeStep_recycled hstore
    refine ⟨t, (new_nodes_empty_iff
      (s := ⟨smallWorld.manager, reliable twoFreePages⟩) hstart).mpr
      (.cons ⟨?_, ?_, hstep⟩ (.nil t))⟩
    · intro _ _ f _
      exact Or.inr ⟨hnew, hblank⟩
    · intro _
      have hzeros : indexToOffset (pageOffset 1) = pageOffset 4096 := by
        decide
      exact (hstore.blankMisses_iff (by decide) hzeros).mpr (by decide)

end NickDB

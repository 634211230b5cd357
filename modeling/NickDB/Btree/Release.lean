import NickDB.Btree.Create
import NickDB.Store.AllocFailure
import NickDB.Store.SecondAllocation

/-!
# What failing calls of the tree release

A call of `btree.c` that fails returns at once.  Nothing unpins the frames it
has pinned by then, and nothing frees the pages it has allocated.  So a call
releases what it took only where it fails before it has taken anything, or where
what it took does not show: a frame that was pinned already, or, after two
allocations, a metadata page that is restored by chance.
-/

namespace NickDB

open BufferManager

variable {frames : ℕ}

/-- The same frames are pinned, and the same pages of the store are
allocated. -/
structure Released (manager manager' : BufferManager frames)
    (file' : StoreFile) (size : ℕ) (free : List ℕ) : Prop where
  pinned : ∀ f, (manager'.state f).IsPinned ↔ (manager.state f).IsPinned
  allocated : SameAllocated file'.image size free

/-- A pin of a page that is there does not fail: a frame is free, and the call
finds its key or the page can be read by the transfer number `n`. -/
def PinAnswers (activation : ℕ) (manager : BufferManager frames)
    (schedule : List Transfer) (n : ℕ) : Prop :=
  manager.freelist ≠ none ∧
    (manager.Knows activation ∨ Completes schedule n)

/-- `btree_alloc_node` refuses the type, does not fail, or fails in
`alloc_page`, which spares the words of the store. -/
def NodeReleases (activation : ℕ) (manager : BufferManager frames)
    (file : StoreFile) (type : PageType) (free : List ℕ) : Prop :=
  IsNodeType type →
    (AllocCompletes file.image file.schedule free →
      PinAnswers activation manager file.schedule (allocTransfers free)) ∧
    (¬AllocCompletes file.image file.schedule free →
      AllocSpares file.image file.schedule free)

/-- `btree_create` fails in its first `alloc_page`, which spares the words of
the store; or its first node pins no further frame and its second `alloc_page`
restores the words. -/
def CreateReleases (rootPin : ℕ) (manager : BufferManager frames)
    (file : StoreFile) (free : List ℕ) : Prop :=
  (¬AllocCompletes file.image file.schedule free ∧
    AllocSpares file.image file.schedule free) ∨
  (AllocCompletes file.image file.schedule free ∧
    PinAnswers rootPin manager file.schedule (allocTransfers free) ∧
    (manager.Knows rootPin ∨
      ∀ f ∈ manager.freelist, (manager.state f).IsPinned) ∧
    SecondRestores file.image (file.schedule.drop (allocTransfers free +
      if manager.Knows rootPin then 0 else 1)) free)

/-- `btree_insert` takes a frame that was not pinned for the root, finds no
separators in it, and fails to pin its first child: that is the metadata page,
or the call does not find its key and cannot read the page. -/
def LeavesRoot (rootPin dataPin : ℕ) (config : BtreeConfig)
    (manager : BufferManager frames) (file : StoreFile) (key value : Bool)
    (valueLength : UInt64) : Prop :=
  key = true ∧ ¬(valueLength = 0 ∧ value = true) ∧
    config.root ≠ metadataIndex ∧ ¬manager.Knows rootPin ∧
    ∃ f node file₁, manager.freelist = some f ∧
      ¬(manager.state f).IsPinned ∧
      getPage (manager.buffer f) manager.store file config.root =
        (.ok, node, file₁) ∧
      nodeByte node (btreeGetSepList config) = some 0 ∧
      (dirEntry node 0 firstEntry_fits = metadataIndex ∨
        (dataPin ≠ rootPin ∧ ¬manager.Knows dataPin ∧
          (getPage node manager.store file₁
            (dirEntry node 0 firstEntry_fits)).1 ≠ .ok))

variable {manager manager' : BufferManager frames} {activation : ℕ}
  {store : Backing} {file file' file₁ : StoreFile} {size : ℕ}
  {free : List ℕ} {status : Status} {page : PageIndex}

/-! ## Pins -/

theorem pinAnswers_drop {schedule : List Transfer} {n : ℕ} :
    PinAnswers activation manager (schedule.drop n) 0 ↔
      PinAnswers activation manager schedule n := by
  rw [PinAnswers, PinAnswers, completes_drop, Nat.add_zero]

/-- A pin of a new page that is answered or not. -/
theorem PinOutcome.ok_iff {frame : Option (Fin frames)} {k : ℕ}
    (h : PinOutcome activation manager file page status frame manager' file')
    (hstore : manager.store = some store)
    (hnew : NewlyAllocated size free page file.image k) :
    status = .ok ↔ PinAnswers activation manager file.schedule 0 := by
  obtain ⟨image, schedule⟩ := file
  obtain ⟨rfl, hpos, hlimit, -, hin⟩ := hnew
  have hread : ∀ dest, (getPage dest manager.store ⟨image, schedule⟩
      (Int64.ofNat k)).1 = .ok ↔ Completes schedule 0 := by
    intro dest
    obtain ⟨read, dest', hget, hdone⟩ :=
      @getPage_iff image schedule k dest store hpos hlimit hin
    rw [hstore, hget]
    exact hdone
  cases h with
  | metaPage hindex => exact absurd hindex (pageIndex_ne_zero hpos hlimit)
  | noFreeFrames hindex hfree =>
      exact iff_of_false nofun fun hanswers => hanswers.1 hfree
  | hit hindex hfree hknown =>
      exact iff_of_true rfl ⟨hfree ▸ nofun, Or.inl hknown⟩
  | @unread f status dest file' hindex hfree hnew hget hstatus =>
      refine iff_of_false hstatus ?_
      rintro ⟨-, hknown | hdone⟩
      · exact hnew hknown
      · have hok := (hread (manager.buffer f)).mpr hdone
        rw [hget] at hok
        exact hstatus hok
  | @taken f next dest file' hindex hfree hnew hget hnext =>
      refine iff_of_true rfl ⟨hfree ▸ nofun, Or.inr ?_⟩
      rw [← hread (manager.buffer f), hget]

/-- A pin that succeeds has used up the transfer of its read, if it reads. -/
theorem PinOutcome.schedule_of_ok {frame : Option (Fin frames)} {k : ℕ}
    (h : PinOutcome activation manager file page .ok frame manager' file')
    (hstore : manager.store = some store)
    (hnew : NewlyAllocated size free page file.image k) :
    file'.schedule =
      file.schedule.drop (if manager.Knows activation then 0 else 1) := by
  obtain ⟨image, schedule⟩ := file
  obtain ⟨rfl, hpos, hlimit, -, hin⟩ := hnew
  cases h with
  | hit hindex hfree hknown => rw [if_pos hknown, List.drop_zero]
  | unread hindex hfree hnew hget hstatus => exact absurd rfl hstatus
  | @taken f next dest file' hindex hfree hnew hget hnext =>
      obtain ⟨read, dest', hread, -⟩ := @getPage_iff image schedule k
        (manager.buffer f) store hpos hlimit hin
      rw [hstore, hread] at hget
      cases hget
      rw [if_neg hnew, List.drop_one]

/-- The frames that are pinned once a pin has succeeded. -/
theorem PinOutcome.isPinned_iff {frame : Option (Fin frames)}
    (h : PinOutcome activation manager file page .ok frame manager' file') :
    (∀ f, (manager'.state f).IsPinned ↔ (manager.state f).IsPinned) ↔
      (manager.Knows activation ∨
        ∀ f ∈ manager.freelist, (manager.state f).IsPinned) := by
  cases h with
  | hit hindex hfree hknown =>
      exact iff_of_true (fun _ => Iff.rfl) (Or.inl hknown)
  | unread hindex hfree hnew hget hstatus => exact absurd rfl hstatus
  | @taken f next dest file' hindex hfree hnew hget hnext =>
      rw [or_iff_right hnew, state_claim]
      simp only [hfree, Option.mem_some_iff, forall_eq']
      constructor
      · intro hall
        have hpinned := hall f
        rw [Function.update_self] at hpinned
        exact hpinned.mp (Or.inl rfl)
      · intro hpinned g
        by_cases hgf : g = f
        · rw [hgf, Function.update_self]
          exact iff_of_true (Or.inl rfl) hpinned
        · rw [Function.update_of_ne hgf]
          rfl

/-! ## `btree_alloc_node` -/

/-- What is left of a call that fails does not show in the frames. -/
theorem released_iff_of_state (hstate : manager'.state = manager.state) :
    Released manager manager' file' size free ↔
      SameAllocated file'.image size free := by
  constructor
  · intro hreleased
    exact hreleased.allocated
  · intro hsame
    exact ⟨fun f => by rw [hstate], hsame⟩

/-- `buff_alloc_frame` succeeds exactly when the page is allocated and its pin is
answered. -/
theorem AllocOutcome.ok_iff {pair : Option (Fin frames × PageIndex)}
    (h : AllocOutcome activation manager file true status pair manager' file')
    (hstore : manager.store = some store)
    (hfile : StoreAt file.image size free) :
    status = .ok ↔ AllocCompletes file.image file.schedule free ∧
      PinAnswers activation manager file.schedule (allocTransfers free) := by
  obtain ⟨image, schedule⟩ := file
  cases h with
  | refused halloc hstatus =>
      rw [hstore] at halloc
      have hnot := mt ((hfile.allocAttempt halloc).ok_iff hfile).mpr hstatus
      exact iff_of_false hstatus fun hboth => hnot hboth.1
  | unpinned halloc hpin hstatus =>
      rw [hstore] at halloc
      have hattempt := hfile.allocAttempt halloc
      have hdone := (hattempt.ok_iff hfile).mp rfl
      obtain ⟨k, hnew⟩ := hfile.newlyAllocated halloc
      rw [hpin.ok_iff hstore hnew, hattempt.schedule_eq, pinAnswers_drop]
      exact (and_iff_right hdone).symm
  | pinned halloc hpin =>
      rw [hstore] at halloc
      have hattempt := hfile.allocAttempt halloc
      have hdone := (hattempt.ok_iff hfile).mp rfl
      obtain ⟨k, hnew⟩ := hfile.newlyAllocated halloc
      have hanswers := (hpin.ok_iff hstore hnew).mp rfl
      rw [hattempt.schedule_eq, pinAnswers_drop] at hanswers
      exact iff_of_true rfl ⟨hdone, hanswers⟩

/-- Where no frame is allocated, the allocation of the page decides. -/
theorem AllocOutcome.released_iff {pair : Option (Fin frames × PageIndex)}
    (h : AllocOutcome activation manager file true status pair manager' file')
    (hstore : manager.store = some store)
    (hfile : StoreAt file.image size free) (hstatus : status ≠ .ok) :
    Released manager manager' file' size free ↔
      ¬AllocCompletes file.image file.schedule free ∧
        AllocSpares file.image file.schedule free := by
  obtain ⟨image, schedule⟩ := file
  cases h with
  | refused halloc hrefused =>
      rw [hstore] at halloc
      have hattempt := hfile.allocAttempt halloc
      have hnot := mt (hattempt.ok_iff hfile).mpr hstatus
      rw [released_iff_of_state rfl, hattempt.same_iff hfile hstatus]
      exact (and_iff_right hnot).symm
  | unpinned halloc hpin hunpinned =>
      rw [hstore] at halloc
      have hdone := ((hfile.allocAttempt halloc).ok_iff hfile).mp rfl
      refine iff_of_false (fun hreleased => ?_) fun hboth => hboth.1 hdone
      have hsame := hreleased.allocated
      rw [hpin.image_eq] at hsame
      exact hfile.not_sameAllocated halloc hsame
  | pinned halloc hpin => exact absurd rfl hstatus

theorem NodeOutcome.released_iff {type : PageType}
    {node : Option (Fin frames)}
    (h : NodeOutcome activation manager file type status node manager' file')
    (hstore : manager.store = some store)
    (hfile : StoreAt file.image size free) :
    (status ≠ .ok → Released manager manager' file' size free) ↔
      NodeReleases activation manager file type free := by
  cases h with
  | badType htype =>
      refine iff_of_true (fun _ => ?_) fun hvalid => absurd hvalid htype
      exact (released_iff_of_state rfl).mpr hfile.same
  | refused htype halloc hstatus =>
      have hnot := mt (halloc.ok_iff hstore hfile).mpr hstatus
      rw [imp_iff_right hstatus, halloc.released_iff hstore hfile hstatus]
      constructor
      · rintro ⟨hfails, hspares⟩ _
        exact ⟨fun hdone => absurd hdone hfails, fun _ => hspares⟩
      · intro hall
        obtain ⟨hanswers, hspares⟩ := hall htype
        have hfails : ¬AllocCompletes file.image file.schedule free :=
          fun hdone => hnot ⟨hdone, hanswers hdone⟩
        exact ⟨hfails, hspares hfails⟩
  | made htype halloc =>
      obtain ⟨hdone, hanswers⟩ := (halloc.ok_iff hstore hfile).mp rfl
      exact iff_of_true (fun hne => absurd rfl hne)
        fun _ => ⟨fun _ => hanswers, fun hnot => absurd hdone hnot⟩

/-! ## `btree_create` -/

/-- The allocation of a page in a call of `btree_alloc_node`. -/
theorem NodeOutcome.exists_alloc {type : PageType} {node : Option (Fin frames)}
    (h : NodeOutcome activation manager file type status node manager' file')
    (htype : IsNodeType type) :
    ∃ pagealloc page file₁,
      allocPage none manager.store file = (pagealloc, page, file₁) ∧
      file'.image = file₁.image ∧
      (pagealloc ≠ .ok → status ≠ .ok ∧ manager' = manager) := by
  cases h with
  | badType hbad => exact absurd htype hbad
  | refused htype halloc hstatus =>
      cases halloc with
      | refused halloc hrefused =>
          exact ⟨_, _, _, halloc, rfl, fun _ => ⟨hstatus, rfl⟩⟩
      | unpinned halloc hpin hunpinned =>
          exact ⟨_, _, _, halloc, hpin.image_eq, fun hne => absurd rfl hne⟩
      | pinned halloc hpin => exact absurd rfl hstatus
  | made htype halloc =>
      cases halloc with
      | pinned halloc hpin =>
          exact ⟨_, _, _, halloc, hpin.image_eq, fun hne => absurd rfl hne⟩

/-- The root is missing, or there is a root and the call has come to the leaf;
where that is missing, the call ends. -/
theorem CreateOutcome.nodes {rootPin leafPin : ℕ} {config config' : BtreeConfig}
    {keySize : UInt64} {comparator : Option KeyComparator}
    (h : CreateOutcome rootPin leafPin config manager file keySize comparator
      status config' manager' file') :
    (∃ node, NodeOutcome rootPin manager file .dirPage status node manager'
      file') ∨
    ∃ root manager₁ file₁ leafStatus node manager₂,
      NodeOutcome rootPin manager file .dirPage .ok (some root) manager₁
        file₁ ∧
      NodeOutcome leafPin manager₁ file₁ .dataPage leafStatus node manager₂
        file' ∧
      (leafStatus ≠ .ok → manager' = manager₂) := by
  have hstatus := h.status_ne_ok
  cases h with
  | failed hbuild =>
      cases hbuild with
      | noRoot hroot hfailed => exact Or.inl ⟨_, hroot⟩
      | noLeaf hroot hleaf hfailed =>
          exact Or.inr ⟨_, _, _, _, _, _, hroot, hleaf, fun _ => rfl⟩
  | leafKept hbuild hunpin hfailed =>
      cases hbuild with
      | built hroot hleaf =>
          exact Or.inr ⟨_, _, _, _, _, _, hroot, hleaf,
            fun hne => absurd rfl hne⟩
  | unpinned hbuild hfirst hsecond =>
      cases hbuild with
      | built hroot hleaf =>
          exact Or.inr ⟨_, _, _, _, _, _, hroot, hleaf,
            fun hne => absurd rfl hne⟩

/-- What there is once a node is made: its page has been allocated, the
transfers of both calls are used up, and the frame shows unless its pin found
the key or the frame was pinned before. -/
theorem NodeOutcome.made_root {type : PageType} {f : Fin frames}
    {manager₁ : BufferManager frames}
    (h : NodeOutcome activation manager file type .ok (some f) manager₁ file₁)
    (hstore : manager.store = some store)
    (hfile : StoreAt file.image size free) :
    ∃ page image schedule, allocPage none (some store) file =
        (.ok, page, ⟨image, schedule⟩) ∧
      file₁ = ⟨image, file.schedule.drop (allocTransfers free +
        if manager.Knows activation then 0 else 1)⟩ ∧
      manager₁.store = some store ∧
      ((∀ g, (manager₁.state g).IsPinned ↔ (manager.state g).IsPinned) ↔
        (manager.Knows activation ∨
          ∀ g ∈ manager.freelist, (manager.state g).IsPinned)) := by
  obtain ⟨image₀, schedule₀⟩ := file
  cases h with
  | made htype halloc =>
      cases halloc with
      | @pinned page f manager' later file₁ halloc hpin =>
          obtain ⟨image, schedule⟩ := later
          rw [hstore] at halloc
          have hattempt := hfile.allocAttempt halloc
          have hschedule : schedule = schedule₀.drop (allocTransfers free) :=
            hattempt.schedule_eq
          obtain ⟨k, hnew⟩ := hfile.newlyAllocated halloc
          have hleft := hpin.schedule_of_ok hstore hnew
          refine ⟨_, image, schedule, halloc, ?_,
            hpin.store_eq.trans hstore, hpin.isPinned_iff⟩
          refine StoreFile.ext hpin.image_eq (hleft.trans ?_)
          rw [hschedule, List.drop_drop]

/-- `btree_create` releases what it took exactly where its first allocation
fails and spares the words, or nothing shows of its root and its second
allocation restores the words. -/
theorem CreateOutcome.released_iff {rootPin leafPin : ℕ}
    {config config' : BtreeConfig} {keySize : UInt64}
    {comparator : Option KeyComparator}
    (h : CreateOutcome rootPin leafPin config manager file keySize comparator
      status config' manager' file')
    (hstore : manager.store = some store)
    (hfile : StoreAt file.image size free) :
    Released manager manager' file' size free ↔
      CreateReleases rootPin manager file free := by
  have hstatus := h.status_ne_ok
  rcases h.nodes with ⟨node, hroot⟩ | ⟨root, manager₁, file₁, leafStatus, node,
    manager₂, hroot, hleaf, hkept⟩
  · cases hroot with
    | badType htype => exact absurd (Or.inl rfl) htype
    | refused htype halloc hfailed =>
        have hnot := mt (halloc.ok_iff hstore hfile).mpr hstatus
        rw [halloc.released_iff hstore hfile hstatus, CreateReleases]
        refine (or_iff_left ?_).symm
        rintro ⟨hdone, hanswers, -⟩
        exact hnot ⟨hdone, hanswers⟩
    | made htype halloc => exact absurd rfl hstatus
  · have hmade : AllocCompletes file.image file.schedule free ∧
        PinAnswers rootPin manager file.schedule (allocTransfers free) := by
      cases hroot with
      | made htype halloc => exact (halloc.ok_iff hstore hfile).mp rfl
    obtain ⟨page, image, schedule, hfirst, rfl, hstore₁, hpinned⟩ :=
      hroot.made_root hstore hfile
    obtain ⟨pagealloc, page₂, file₂, hsecond, himage, hrefused⟩ :=
      hleaf.exists_alloc (Or.inr rfl)
    rw [hstore₁] at hsecond
    obtain ⟨hsame, hfailed⟩ := hfile.second_alloc_iff hfirst hsecond
    -- a second allocation that restores the words has failed, so the call ends
    have hstate : SecondRestores file.image (file.schedule.drop
        (allocTransfers free + if manager.Knows rootPin then 0 else 1)) free →
        manager'.state = manager₁.state := by
      intro hrestores
      obtain ⟨hleafStatus, hmanager⟩ := hrefused (hfailed hrestores)
      rw [hkept hleafStatus, hmanager]
    constructor
    · rintro ⟨hpins, halloc⟩
      rw [himage, hsame] at halloc
      rw [hstate halloc, hpinned] at hpins
      exact Or.inr ⟨hmade.1, hmade.2, hpins, halloc⟩
    · rintro (⟨hnot, -⟩ | ⟨-, -, hpins, hrestores⟩)
      · exact absurd hmade.1 hnot
      · constructor
        · rw [hstate hrestores, hpinned]
          exact hpins
        · rw [himage, hsame]
          exact hrestores

/-! ## `btree_insert` -/

section Insert

variable {rootPin dataPin : ℕ} {config : BtreeConfig} {key value : Bool}
  {valueLength : UInt64}

/-- The outcomes of `btree_insert`. -/
inductive InsertOutcome (rootPin dataPin : ℕ) (config : BtreeConfig)
    (manager : BufferManager frames) (file : StoreFile) (key value : Bool)
    (valueLength : UInt64) :
    Status → BufferManager frames → StoreFile → Prop
  | refused (hargs : key = true → valueLength = 0 ∧ value = true) :
      InsertOutcome rootPin dataPin config manager file key value valueLength
        .err manager file
  | noRoot {status : Status} {frame : Option (Fin frames)}
      {manager' : BufferManager frames} {file' : StoreFile}
      (hroot : PinOutcome rootPin manager file config.root status frame
        manager' file') (hstatus : status ≠ .ok) :
      InsertOutcome rootPin dataPin config manager file key value valueLength
        status manager' file'
  | separated {f : Fin frames} {manager' : BufferManager frames}
      {file' : StoreFile} {separator : UInt8}
      (hroot : PinOutcome rootPin manager file config.root .ok (some f)
        manager' file')
      (hseparator : nodeByte (manager'.buffer f) (btreeGetSepList config) =
        some separator) (hne : separator ≠ 0) :
      InsertOutcome rootPin dataPin config manager file key value valueLength
        .ok manager' file'
  | descended {f : Fin frames} {status : Status}
      {frame : Option (Fin frames)} {manager₁ manager' : BufferManager frames}
      {file₁ file' : StoreFile} (hkey : key = true)
      (hvalue : ¬(valueLength = 0 ∧ value = true))
      (hroot : PinOutcome rootPin manager file config.root .ok (some f)
        manager₁ file₁)
      (hseparator : nodeByte (manager₁.buffer f) (btreeGetSepList config) =
        some 0)
      (hdata : PinOutcome dataPin manager₁ file₁
        (dirEntry (manager₁.buffer f) 0 (by decide)) status frame manager'
        file') :
      InsertOutcome rootPin dataPin config manager file key value valueLength
        status manager' file'

theorem insertOutcome_of_btreeInsert
    (h : btreeInsert rootPin dataPin config manager file key value
      valueLength = some (status, manager', file')) :
    InsertOutcome rootPin dataPin config manager file key value valueLength
      status manager' file' := by
  unfold btreeInsert at h
  split at h
  next hkey =>
    cases h
    exact .refused fun htrue => absurd (htrue.symm.trans hkey) (by decide)
  next hkey =>
    split at h
    next hvalue =>
      cases h
      exact .refused fun _ => hvalue
    next hvalue =>
      split at h
      next => cases h
      next rootStatus rootFrame manager₁ file₁ hroot =>
        have hroot := buffPin_eq_some_iff.mp hroot
        split at h
        next hstatus =>
          cases h
          exact .noRoot hroot hstatus
        next hstatus =>
          obtain rfl := not_not.mp hstatus
          obtain ⟨f, rfl, -⟩ := hroot.frame_of_ok
          simp only [] at h
          split at h
          next => cases h
          next separator hseparator =>
            split at h
            next hzero =>
              subst hzero
              have hkey : key = true := Bool.eq_true_of_not_eq_false hkey
              split at h
              next => cases h
              next datapagePin frame manager₂ file₂ hdata =>
                have hdata := buffPin_eq_some_iff.mp hdata
                split at h
                next =>
                  cases h
                  exact .descended hkey hvalue hroot hseparator hdata
                next hok =>
                  obtain rfl := not_not.mp hok
                  cases h
                  exact .descended hkey hvalue hroot hseparator hdata
            next hne =>
              cases h
              exact .separated hroot hseparator hne

/-- A call that has taken a frame knows its own key besides the old ones. -/
theorem knows_claim_iff {f : Fin frames} {node : Page} {index : PageIndex}
    {next : Option (Fin frames)} :
    (((manager.learn rootPin).setBuffer f node).claim f index next).Knows
        dataPin ↔ dataPin = rootPin ∨ manager.Knows dataPin := by
  by_cases heq : dataPin = rootPin
  · subst heq
    exact iff_of_true (knows_learn manager dataPin) (Or.inl rfl)
  · rw [or_iff_right heq]
    have hlookup : tableLookup (((manager.learn rootPin).setBuffer f
        node).claim f index next).lookupTable (.pageidxptr dataPin) =
          tableLookup manager.lookupTable (.pageidxptr dataPin) := by
      have hne : (TablePointer.pageidxptr dataPin ==
          TablePointer.pageidxptr rootPin) = false := by
        simpa using heq
      simp [tableLookup, learn, setTable, setBuffer, claim, setMeta,
        List.lookup_cons, hne]
    rw [Knows, Knows, hlookup]

/-- The second pin of a call that has taken a frame for the root fails for one
of the reasons there are. -/
theorem leavesRoot_iff {f next : Fin frames} {node : Page}
    {frame : Option (Fin frames)} (hkey : key = true)
    (hvalue : ¬(valueLength = 0 ∧ value = true))
    (hindex : config.root ≠ metadataIndex) (hfree : manager.freelist = some f)
    (hnew : ¬manager.Knows rootPin)
    (hget : getPage (manager.buffer f) manager.store file config.root =
      (.ok, node, file₁))
    (hseparator : nodeByte node (btreeGetSepList config) = some 0)
    (hdata : PinOutcome dataPin (((manager.learn rootPin).setBuffer f
      node).claim f config.root (manager.link next)) file₁
      (dirEntry node 0 (by decide)) status frame manager' file') :
    LeavesRoot rootPin dataPin config manager file key value valueLength ↔
      ¬(manager.state f).IsPinned ∧ status ≠ .ok := by
  have hbuffer : (((manager.learn rootPin).setBuffer f node).claim f
      config.root (manager.link next)).buffer f = node := by
    rw [buffer_claim, buffer_setBuffer, Function.update_self]
  have hhead : ∀ g, (((manager.learn rootPin).setBuffer f node).claim f
      config.root (manager.link next)).freelist = some g → g = f :=
    fun g hg => Option.some.inj (hg.symm.trans hfree)
  constructor
  · rintro ⟨-, -, -, -, g, node', file₂, hg, hpinned, hget', -, hfails⟩
    obtain rfl := Option.some.inj (hfree.symm.trans hg)
    rw [hget] at hget'
    cases hget'
    refine ⟨hpinned, ?_⟩
    rintro rfl
    cases hdata with
    | hit hentry hfree₁ hknown =>
        rcases hfails with hmeta | ⟨hne, hnew₁, -⟩
        · exact hentry hmeta
        · rcases knows_claim_iff.mp hknown with heq | hknown
          · exact hne heq
          · exact hnew₁ hknown
    | unread hentry hfree₁ hnew₁ hget₁ hstatus => exact hstatus rfl
    | @taken g next page file₂ hentry hfree₁ hnew₁ hget₁ hnext =>
        obtain rfl := hhead g hfree₁
        rw [hbuffer] at hget₁
        rcases hfails with hmeta | ⟨-, -, hread⟩
        · exact hentry hmeta
        · exact hread (congrArg Prod.fst hget₁)
  · rintro ⟨hpinned, hstatus⟩
    refine ⟨hkey, hvalue, hindex, hnew, f, node, file₁, hfree, hpinned, hget,
      hseparator, ?_⟩
    cases hdata with
    | metaPage hentry => exact Or.inl hentry
    | noFreeFrames hentry hfree₁ =>
        exact absurd (hfree₁.symm.trans hfree) (by simp)
    | hit hentry hfree₁ hknown => exact absurd rfl hstatus
    | @unread g status page file₂ hentry hfree₁ hnew₁ hget₁ hread =>
        obtain rfl := hhead g hfree₁
        rw [hbuffer] at hget₁
        rw [knows_claim_iff, not_or] at hnew₁
        refine Or.inr ⟨hnew₁.1, hnew₁.2, ?_⟩
        intro hok
        exact hstatus ((congrArg Prod.fst hget₁).symm.trans hok)
    | taken hentry hfree₁ hnew₁ hget₁ hnext => exact absurd rfl hstatus

/-- A call that leaves its root pinned has pinned the root, and has found no
separators in it. -/
theorem LeavesRoot.of_pin {frame : Option (Fin frames)}
    {manager₁ : BufferManager frames}
    (h : LeavesRoot rootPin dataPin config manager file key value valueLength)
    (hroot : PinOutcome rootPin manager file config.root status frame manager₁
      file₁) :
    status = .ok ∧ ∀ f ∈ frame,
      nodeByte (manager₁.buffer f) (btreeGetSepList config) = some 0 := by
  obtain ⟨-, -, hindex, hnew, f, node, file₂, hfree, -, hget, hzero, -⟩ := h
  cases hroot with
  | metaPage hmeta => exact absurd hmeta hindex
  | noFreeFrames hmeta hnone => exact absurd (hfree.symm.trans hnone) (by simp)
  | hit hmeta hhead hknown => exact absurd hknown hnew
  | unread hmeta hhead hnew₁ hread hfailed =>
      obtain rfl := Option.some.inj (hfree.symm.trans hhead)
      rw [hget] at hread
      exact absurd (congrArg Prod.fst hread).symm hfailed
  | taken hmeta hhead hnew₁ hread hnext =>
      obtain rfl := Option.some.inj (hfree.symm.trans hhead)
      rw [hget] at hread
      cases hread
      refine ⟨rfl, fun g hg => ?_⟩
      cases hg
      rw [buffer_claim, buffer_setBuffer, Function.update_self]
      exact hzero

/-- Where the second of two pins fails, what the first one took is left. -/
theorem PinOutcome.released_iff_of_second {index : PageIndex} {f : Fin frames}
    {frame : Option (Fin frames)} {manager₁ : BufferManager frames}
    (hroot : PinOutcome rootPin manager file page .ok (some f) manager₁ file₁)
    (hdata : PinOutcome dataPin manager₁ file₁ index status frame manager'
      file') (hstatus : status ≠ .ok) (hfile : StoreAt file.image size free) :
    Released manager manager' file' size free ↔
      (manager.Knows rootPin ∨
        ∀ f ∈ manager.freelist, (manager.state f).IsPinned) := by
  rw [← hroot.isPinned_iff]
  constructor
  · intro hreleased g
    rw [← hdata.state_of_failed hstatus]
    exact hreleased.pinned g
  · intro hpinned
    constructor
    · rw [hdata.state_of_failed hstatus]
      exact hpinned
    · rw [hdata.image_eq, hroot.image_eq]
      exact hfile.same

/-- `btree_insert` releases what it took exactly where it does not leave the
root pinned. -/
theorem InsertOutcome.released_iff
    (h : InsertOutcome rootPin dataPin config manager file key value
      valueLength status manager' file')
    (hfile : StoreAt file.image size free) :
    (status ≠ .ok → Released manager manager' file' size free) ↔
      ¬LeavesRoot rootPin dataPin config manager file key value
        valueLength := by
  cases h with
  | refused hargs =>
      refine iff_of_true (fun _ => ?_) ?_
      · exact (released_iff_of_state rfl).mpr hfile.same
      · rintro ⟨hkey, hvalue, -⟩
        exact hvalue (hargs hkey)
  | noRoot hroot hstatus =>
      have hsame : SameAllocated file'.image size free := by
        rw [hroot.image_eq]
        exact hfile.same
      refine iff_of_true (fun _ => ?_) fun hleaves => ?_
      · exact (released_iff_of_state (hroot.state_of_failed hstatus)).mpr hsame
      · exact hstatus (hleaves.of_pin hroot).1
  | separated hroot hseparator hne =>
      refine iff_of_true (fun hnot => absurd rfl hnot) fun hleaves => ?_
      have hzero := (hleaves.of_pin hroot).2 _ rfl
      exact hne (Option.some.inj (hseparator.symm.trans hzero))
  | @descended f status frame manager₁ manager' file₁ file' hkey hvalue hroot
      hseparator hdata =>
      have hreleased := fun hstatus =>
        hroot.released_iff_of_second hdata hstatus hfile
      cases hroot with
      | hit hmeta hhead hknown =>
          refine iff_of_true (fun hstatus => ?_) fun hleaves => ?_
          · exact (hreleased hstatus).mpr (Or.inl hknown)
          · exact hleaves.2.2.2.1 hknown
      | @taken _ next node file₂ hmeta hhead hnew hread hnext =>
          have hbuffer : (((manager.learn rootPin).setBuffer f node).claim f
              config.root (manager.link next)).buffer f = node := by
            rw [buffer_claim, buffer_setBuffer, Function.update_self]
          rw [hbuffer] at hseparator hdata
          rw [leavesRoot_iff hkey hvalue hmeta hhead hnew hread hseparator
            hdata]
          constructor
          · rintro hall ⟨hpinned, hstatus⟩
            rcases (hreleased hstatus).mp (hall hstatus) with hknown | hpins
            · exact hnew hknown
            · exact hpinned (hpins f hhead)
          · intro hnot hstatus
            apply (hreleased hstatus).mpr
            right
            intro g hg
            obtain rfl := Option.some.inj (hhead.symm.trans hg)
            by_contra hpinned
            exact hnot ⟨hpinned, hstatus⟩

end Insert

/-! ## All three -/

/-- For each of the three calls, when it releases what it took if it fails. -/
theorem failed_calls_release_iff (hstore : manager.store = some store)
    (hfile : StoreAt file.image size free) :
    (∀ activation type status node manager' file',
      btreeAllocNode activation manager file type =
        some (status, node, manager', file') →
      ((status ≠ .ok → Released manager manager' file' size free) ↔
        NodeReleases activation manager file type free)) ∧
    (∀ rootPin leafPin config keySize comparator status config' manager' file',
      btreeCreate rootPin leafPin config manager file keySize comparator =
        some (status, config', manager', file') →
      ((status ≠ .ok → Released manager manager' file' size free) ↔
        CreateReleases rootPin manager file free)) ∧
    ∀ rootPin dataPin config key value valueLength status manager' file',
      btreeInsert rootPin dataPin config manager file key value valueLength =
        some (status, manager', file') →
      ((status ≠ .ok → Released manager manager' file' size free) ↔
        ¬LeavesRoot rootPin dataPin config manager file key value
          valueLength) := by
  refine ⟨?_, ?_, ?_⟩
  · intro activation type status node manager' file' hcall
    exact (nodeOutcome_of_btreeAllocNode hcall).released_iff hstore hfile
  · intro rootPin leafPin config keySize comparator status config' manager'
      file' hcall
    have houtcome := createOutcome_of_btreeCreate hcall
    rw [imp_iff_right houtcome.status_ne_ok]
    exact houtcome.released_iff hstore hfile
  · intro rootPin dataPin config key value valueLength status manager' file'
      hcall
    exact (insertOutcome_of_btreeInsert hcall).released_iff hfile

/-- What failing calls of the tree leave after they have written or pinned:
nothing, where a new page is not counted, or where the root was pinned before
and has no child. -/
theorem release_uncounted :
    (∃ manager' file', btreeAllocNode 0 smallWorld.manager
        ⟨blankStore 2, [.full, .full, .failed]⟩ .dirPage =
          some (.badWrite, none, manager', file') ∧
      Released smallWorld.manager manager' file' 3 []) ∧
    (∃ config' manager' file', btreeCreate 0 0 emptyConfig smallWorld.manager
        ⟨blankStore 2, [.full, .full, .failed]⟩ 8 none =
          some (.badWrite, config', manager', file') ∧
      Released smallWorld.manager manager' file' 3 []) ∧
    ∃ manager' file', btreeInsert 0 0 ⟨1, 8, .defaultCmpKeys⟩
        (pinnedWorld 1).manager (pinnedWorld 1).file true true 1 =
          some (.metaPage, manager', file') ∧
      Released (pinnedWorld 1).manager manager' file' 3 [] := by
  have hfile : StoreAt (blankStore 2) 3 [] := storeAt_blankStore (by decide)
  have hfails : ¬AllocCompletes (blankStore 2) [.full, .full, .failed] [] :=
    fun hdone => absurd hdone.2.2.2 nofun
  have hspares : AllocSpares (blankStore 2) [.full, .full, .failed] [] := by
    refine Or.inr (Or.inr (Or.inr ?_))
    rw [show moved [.full, .full, .failed] 2 = 0 from rfl, Words.overlay_zero]
    exact .refl _
  obtain ⟨hnode, hcreate, -⟩ :=
    @failed_calls_release_iff 2 smallWorld.manager ⟨3⟩
      ⟨blankStore 2, [.full, .full, .failed]⟩ 3 [] rfl hfile
  obtain ⟨-, -, hinsert⟩ :=
    @failed_calls_release_iff 2 (pinnedWorld 1).manager ⟨3⟩
      (pinnedWorld 1).file 3 [] rfl hfile
  have halloc : allocPage none smallWorld.manager.store
      ⟨blankStore 2, [.full, .full, .failed]⟩ =
        (.badWrite, errSet, ⟨writePage (blankStore 2) 3 blankPage, []⟩) :=
    allocPage_uncounted hfile (by decide) (by decide) (by decide) (by decide)
      rfl
  have hroot : btreeAllocNode 0 smallWorld.manager
      ⟨blankStore 2, [.full, .full, .failed]⟩ .dirPage =
        some (.badWrite, none, smallWorld.manager,
          ⟨writePage (blankStore 2) 3 blankPage, []⟩) := by
    simp [btreeAllocNode, buffAllocFrame_of_refused halloc (by decide)]
  have hbuild : btreeCreate 0 0 emptyConfig smallWorld.manager
      ⟨blankStore 2, [.full, .full, .failed]⟩ 8 none =
        some (.badWrite, { emptyConfig with keySize := 8 }, smallWorld.manager,
          ⟨writePage (blankStore 2) 3 blankPage, []⟩) := by
    simp [btreeCreate, btreeBuild, hroot]
  have hchild : btreeInsert 0 0 ⟨1, 8, .defaultCmpKeys⟩
      (pinnedWorld 1).manager (pinnedWorld 1).file true true 1 =
        some (.metaPage, (pinnedWorld 1).manager, (pinnedWorld 1).file) :=
    rfl
  refine ⟨⟨_, _, hroot, ?_⟩, ⟨_, _, _, hbuild, ?_⟩, ⟨_, _, hchild, ?_⟩⟩
  · apply (hnode _ _ _ _ _ _ hroot).mpr _ (by decide)
    intro _
    exact ⟨fun hdone => absurd hdone hfails, fun _ => hspares⟩
  · apply (hcreate _ _ _ _ _ _ _ _ _ hbuild).mpr _ (by decide)
    exact Or.inl ⟨hfails, hspares⟩
  · apply (hinsert _ _ _ _ _ _ _ _ _ hchild).mpr _ (by decide)
    rintro ⟨-, -, -, hunknown, -⟩
    exact hunknown rfl

/-- Over a fresh store `btree_create` fails once it has allocated two pages,
which stay allocated. -/
theorem create_keeps_pages :
    StoreAt createdImage 1 [] ∧
    ∃ config' manager' file', btreeCreate 0 0 emptyConfig smallWorld.manager
        (reliable createdImage) 8 none =
          some (.err, config', manager', file') ∧
      ¬Released smallWorld.manager manager' file' 1 [] := by
  obtain ⟨image, hstore, -, hbuild⟩ := btreeBuild_small emptyConfig
  refine ⟨storeAt_createdImage, _, _, _, btreeCreate_small hbuild, ?_⟩
  rintro ⟨-, free', h', -⟩
  exact absurd (h'.size_unique hstore) (by decide)

end NickDB

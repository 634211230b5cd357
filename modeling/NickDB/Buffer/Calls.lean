import NickDB.Buffer.Model
import NickDB.Support.Linked
import Mathlib.Data.Fintype.Card

/-!
# What the buffer manager's functions do

One inversion lemma for each function: the outcomes it can have, each with the
conditions under which it is taken and the state it leaves.  Later modules
argue by cases on these outcomes and never unfold the functions again.
-/

namespace NickDB

open Linked

variable {frames : ℕ}

namespace BufferManager

/-- The state of a frame. -/
def state (manager : BufferManager frames) (f : Fin frames) : FrameState :=
  (manager.metaframes f).state

/-- The page of a frame. -/
def index (manager : BufferManager frames) (f : Fin frames) : PageIndex :=
  (manager.metaframes f).index

/-- The link of a frame. -/
def link (manager : BufferManager frames) (f : Fin frames) :
    Option (Fin frames) :=
  (manager.metaframes f).nextFreeOrDirty

/-- `buff_pin`, called at this place on the stack, finds its key. -/
def Knows (manager : BufferManager frames) (activation : ℕ) : Prop :=
  (tableLookup manager.lookupTable (.pageidxptr activation)).isSome

instance (manager : BufferManager frames) (activation : ℕ) :
    Decidable (manager.Knows activation) :=
  inferInstanceAs (Decidable (_ = true))

/-- The key of a call of `buff_pin` enters the table. -/
def learn (manager : BufferManager frames) (activation : ℕ) :
    BufferManager frames :=
  manager.setTable
    ((.pageidxptr activation, .frameidxptr activation) :: manager.lookupTable)

/-- The frame `f` is taken for the page `index`, and its link becomes `next`. -/
def claim (manager : BufferManager frames) (f : Fin frames)
    (index : PageIndex) (next : Option (Fin frames)) : BufferManager frames :=
  manager.setMeta f
    { state := .pinned, index := index, nextFreeOrDirty := next }

/-- The frame `f` goes to the head of the free list. -/
def pushFree (manager : BufferManager frames) (f : Fin frames) :
    BufferManager frames :=
  (manager.setFreelist (some f)).setMeta f
    { state := .unpinned, index := manager.index f,
      nextFreeOrDirty := manager.freelist }

/-- The frame `f` goes to the head of the write-back list. -/
def pushDirty (manager : BufferManager frames) (f : Fin frames) :
    BufferManager frames :=
  (manager.setWriteback (some f)).setMeta f
    { state := .unpinnedDirty, index := manager.index f,
      nextFreeOrDirty := manager.writeback }

end BufferManager

open BufferManager

/-! ## Fields of the updated managers -/

section Fields

variable (manager : BufferManager frames) (f g : Fin frames) (page : Page)
  (table : LookupTable) (activation : ℕ) (st : FrameState)
  (p : PageIndex) (next : Option (Fin frames))

@[simp] theorem state_setTable :
    (manager.setTable table).state = manager.state := rfl

@[simp] theorem index_setTable :
    (manager.setTable table).index = manager.index := rfl

@[simp] theorem link_setTable :
    (manager.setTable table).link = manager.link := rfl

@[simp] theorem buffer_setTable :
    (manager.setTable table).buffer = manager.buffer := rfl

@[simp] theorem freelist_setTable :
    (manager.setTable table).freelist = manager.freelist := rfl

@[simp] theorem writeback_setTable :
    (manager.setTable table).writeback = manager.writeback := rfl

@[simp] theorem store_setTable :
    (manager.setTable table).store = manager.store := rfl

@[simp] theorem state_learn :
    (manager.learn activation).state = manager.state := rfl

@[simp] theorem index_learn :
    (manager.learn activation).index = manager.index := rfl

@[simp] theorem link_learn :
    (manager.learn activation).link = manager.link := rfl

@[simp] theorem buffer_learn :
    (manager.learn activation).buffer = manager.buffer := rfl

@[simp] theorem freelist_learn :
    (manager.learn activation).freelist = manager.freelist := rfl

@[simp] theorem writeback_learn :
    (manager.learn activation).writeback = manager.writeback := rfl

@[simp] theorem store_learn :
    (manager.learn activation).store = manager.store := rfl

@[simp] theorem state_setBuffer :
    (manager.setBuffer f page).state = manager.state := rfl

@[simp] theorem index_setBuffer :
    (manager.setBuffer f page).index = manager.index := rfl

@[simp] theorem link_setBuffer :
    (manager.setBuffer f page).link = manager.link := rfl

@[simp] theorem buffer_setBuffer :
    (manager.setBuffer f page).buffer =
      Function.update manager.buffer f page := rfl

@[simp] theorem freelist_setBuffer :
    (manager.setBuffer f page).freelist = manager.freelist := rfl

@[simp] theorem writeback_setBuffer :
    (manager.setBuffer f page).writeback = manager.writeback := rfl

@[simp] theorem store_setBuffer :
    (manager.setBuffer f page).store = manager.store := rfl

@[simp] theorem state_setState :
    (manager.setState f st).state = Function.update manager.state f st := by
  funext g
  simp only [BufferManager.state, setState, setMeta, Function.update_apply]
  split <;> rfl

@[simp] theorem index_setState :
    (manager.setState f st).index = manager.index := by
  funext g
  simp only [BufferManager.index, setState, setMeta, Function.update_apply]
  split
  next h => rw [h]
  next => rfl

@[simp] theorem link_setState :
    (manager.setState f st).link = manager.link := by
  funext g
  simp only [link, setState, setMeta, Function.update_apply]
  split
  next h => rw [h]
  next => rfl

@[simp] theorem buffer_setState :
    (manager.setState f st).buffer = manager.buffer := rfl

@[simp] theorem freelist_setState :
    (manager.setState f st).freelist = manager.freelist := rfl

@[simp] theorem writeback_setState :
    (manager.setState f st).writeback = manager.writeback := rfl

@[simp] theorem store_setState :
    (manager.setState f st).store = manager.store := rfl

@[simp] theorem lookupTable_setState :
    (manager.setState f st).lookupTable = manager.lookupTable := rfl

@[simp] theorem state_claim :
    (manager.claim f p next).state =
      Function.update manager.state f .pinned := by
  funext g
  simp only [BufferManager.state, claim, setMeta, Function.update_apply]
  split <;> rfl

@[simp] theorem index_claim :
    (manager.claim f p next).index = Function.update manager.index f p := by
  funext g
  simp only [BufferManager.index, claim, setMeta, Function.update_apply]
  split <;> rfl

@[simp] theorem link_claim :
    (manager.claim f p next).link = Function.update manager.link f next := by
  funext g
  simp only [link, claim, setMeta, Function.update_apply]
  split <;> rfl

@[simp] theorem buffer_claim :
    (manager.claim f p next).buffer = manager.buffer := rfl

@[simp] theorem freelist_claim :
    (manager.claim f p next).freelist = manager.freelist := rfl

@[simp] theorem writeback_claim :
    (manager.claim f p next).writeback = manager.writeback := rfl

@[simp] theorem store_claim :
    (manager.claim f p next).store = manager.store := rfl

@[simp] theorem state_pushFree :
    (manager.pushFree f).state =
      Function.update manager.state f .unpinned := by
  funext g
  simp only [BufferManager.state, pushFree, setMeta, Function.update_apply]
  split <;> rfl

@[simp] theorem index_pushFree :
    (manager.pushFree f).index = manager.index := by
  funext g
  simp only [BufferManager.index, pushFree, setMeta, Function.update_apply]
  split
  next h => rw [h]
  next => rfl

@[simp] theorem link_pushFree :
    (manager.pushFree f).link =
      Function.update manager.link f manager.freelist := by
  funext g
  simp only [link, pushFree, setMeta, Function.update_apply]
  split <;> rfl

@[simp] theorem buffer_pushFree :
    (manager.pushFree f).buffer = manager.buffer := rfl

@[simp] theorem freelist_pushFree :
    (manager.pushFree f).freelist = some f := rfl

@[simp] theorem writeback_pushFree :
    (manager.pushFree f).writeback = manager.writeback := rfl

@[simp] theorem store_pushFree :
    (manager.pushFree f).store = manager.store := rfl

@[simp] theorem state_pushDirty :
    (manager.pushDirty f).state =
      Function.update manager.state f .unpinnedDirty := by
  funext g
  simp only [BufferManager.state, pushDirty, setMeta, Function.update_apply]
  split <;> rfl

@[simp] theorem index_pushDirty :
    (manager.pushDirty f).index = manager.index := by
  funext g
  simp only [BufferManager.index, pushDirty, setMeta, Function.update_apply]
  split
  next h => rw [h]
  next => rfl

@[simp] theorem link_pushDirty :
    (manager.pushDirty f).link =
      Function.update manager.link f manager.writeback := by
  funext g
  simp only [link, pushDirty, setMeta, Function.update_apply]
  split <;> rfl

@[simp] theorem buffer_pushDirty :
    (manager.pushDirty f).buffer = manager.buffer := rfl

@[simp] theorem freelist_pushDirty :
    (manager.pushDirty f).freelist = manager.freelist := rfl

@[simp] theorem writeback_pushDirty :
    (manager.pushDirty f).writeback = some f := rfl

@[simp] theorem store_pushDirty :
    (manager.pushDirty f).store = manager.store := rfl

end Fields

/-- A key that has been entered is found. -/
theorem knows_learn (manager : BufferManager frames) (activation : ℕ) :
    (manager.learn activation).Knows activation := by
  simp [Knows, learn, setTable, tableLookup]

/-! ## `buff_pin` -/

/-- The outcomes of `buff_pin`. -/
inductive PinOutcome (activation : ℕ) (manager : BufferManager frames)
    (file : StoreFile) (index : PageIndex) :
    Status → Option (Fin frames) → BufferManager frames → StoreFile → Prop
  | metaPage (hindex : index = metadataIndex) :
      PinOutcome activation manager file index .metaPage none manager file
  | noFreeFrames (hindex : index ≠ metadataIndex)
      (hfree : manager.freelist = none) :
      PinOutcome activation manager file index .noFreeFrames none manager file
  | hit {f : Fin frames} (hindex : index ≠ metadataIndex)
      (hfree : manager.freelist = some f)
      (hknown : manager.Knows activation) :
      PinOutcome activation manager file index .ok (some f) manager file
  | unread {f : Fin frames} {status : Status} {page : Page}
      {file' : StoreFile} (hindex : index ≠ metadataIndex)
      (hfree : manager.freelist = some f)
      (hnew : ¬manager.Knows activation)
      (hget : getPage (manager.buffer f) manager.store file index =
        (status, page, file')) (hstatus : status ≠ .ok) :
      PinOutcome activation manager file index status none
        ((manager.learn activation).setBuffer f page) file'
  | taken {f next : Fin frames} {page : Page} {file' : StoreFile}
      (hindex : index ≠ metadataIndex) (hfree : manager.freelist = some f)
      (hnew : ¬manager.Knows activation)
      (hget : getPage (manager.buffer f) manager.store file index =
        (.ok, page, file')) (hnext : manager.link f = some next) :
      PinOutcome activation manager file index .ok (some f)
        (((manager.learn activation).setBuffer f page).claim f index
          (manager.link next)) file'

theorem buffPin_of_hit {activation : ℕ} {manager : BufferManager frames}
    {file : StoreFile} {index : PageIndex} {f : Fin frames}
    (hindex : index ≠ metadataIndex) (hfree : manager.freelist = some f)
    (hknown : manager.Knows activation) :
    buffPin activation manager file index =
      some (.ok, some f, manager, file) := by
  obtain ⟨value, hvalue⟩ := Option.isSome_iff_exists.mp hknown
  simp only [buffPin, if_neg hindex, hfree, hvalue]

/-- A call whose key is new reads the page into the first free frame. -/
theorem buffPin_of_new {activation : ℕ} {manager : BufferManager frames}
    {file file' : StoreFile} {index : PageIndex} {f : Fin frames}
    {status : Status} {page : Page} (hindex : index ≠ metadataIndex)
    (hfree : manager.freelist = some f) (hnew : ¬manager.Knows activation)
    (hget : getPage (manager.buffer f) manager.store file index =
      (status, page, file')) :
    buffPin activation manager file index =
      if status ≠ .ok then
        some (status, none, (manager.learn activation).setBuffer f page, file')
      else
        (manager.link f).map fun next => (.ok, some f,
          ((manager.learn activation).setBuffer f page).claim f index
            (manager.link next), file') := by
  have hnone : tableLookup manager.lookupTable (.pageidxptr activation) =
      none := Option.not_isSome_iff_eq_none.mp hnew
  have hinsert : tableInsert manager.lookupTable (.pageidxptr activation)
      (.frameidxptr activation) = some (true, (.pageidxptr activation,
        .frameidxptr activation) :: manager.lookupTable) := by
    rw [tableInsert, hnone]
  have hclaim : ∀ (m : BufferManager frames) (metaframe : MetaFrame frames),
      ((m.setMeta f metaframe).setState f .pinned).setIndex f index =
        m.claim f index metaframe.nextFreeOrDirty := by
    intro m metaframe
    simp [setIndex, setState, setMeta, claim]
  have hlearn : manager.setTable ((.pageidxptr activation,
      .frameidxptr activation) :: manager.lookupTable) =
        manager.learn activation := rfl
  simp only [buffPin, if_neg hindex, hfree, hnone, hinsert, hlearn, hclaim,
    buffer_learn, store_learn, hget]
  rw [if_neg (not_not.mpr rfl)]
  by_cases hstatus : status = .ok
  · rw [if_neg (not_not.mpr hstatus), if_neg (not_not.mpr hstatus)]
    cases hlink : manager.link f with
    | none =>
        have hnext : (((manager.learn activation).setBuffer f
            page).metaframes f).nextFreeOrDirty = none := hlink
        rw [hnext]
        rfl
    | some next =>
        have hnext : (((manager.learn activation).setBuffer f
            page).metaframes f).nextFreeOrDirty = some next := hlink
        rw [hnext]
        subst hstatus
        rfl
  · rw [if_pos hstatus, if_pos hstatus]

theorem buffPin_eq_some_iff {activation : ℕ} {manager : BufferManager frames}
    {file : StoreFile} {index : PageIndex} {status : Status}
    {frame : Option (Fin frames)} {manager' : BufferManager frames}
    {file' : StoreFile} :
    buffPin activation manager file index =
        some (status, frame, manager', file') ↔
      PinOutcome activation manager file index status frame manager'
        file' := by
  constructor
  · intro h
    by_cases hindex : index = metadataIndex
    · rw [buffPin, if_pos hindex] at h
      cases h
      exact .metaPage hindex
    cases hfree : manager.freelist with
    | none =>
        simp only [buffPin, if_neg hindex, hfree] at h
        cases h
        exact .noFreeFrames hindex hfree
    | some f =>
        by_cases hknown : manager.Knows activation
        · rw [buffPin_of_hit hindex hfree hknown] at h
          cases h
          exact .hit hindex hfree hknown
        obtain ⟨⟨read, page, file₁⟩, hget⟩ : ∃ result,
          getPage (manager.buffer f) manager.store file index = result :=
          ⟨_, rfl⟩
        rw [buffPin_of_new hindex hfree hknown hget] at h
        split at h
        next hstatus =>
          cases h
          exact .unread hindex hfree hknown hget hstatus
        next hstatus =>
          obtain rfl := not_not.mp hstatus
          obtain ⟨next, hnext, h⟩ := Option.map_eq_some_iff.mp h
          cases h
          exact .taken hindex hfree hknown hget hnext
  · intro h
    cases h with
    | metaPage hindex => rw [buffPin, if_pos hindex]
    | noFreeFrames hindex hfree =>
        simp only [buffPin, if_neg hindex, hfree]
    | hit hindex hfree hknown => exact buffPin_of_hit hindex hfree hknown
    | unread hindex hfree hnew hget hstatus =>
        rw [buffPin_of_new hindex hfree hnew hget, if_pos hstatus]
    | taken hindex hfree hnew hget hnext =>
        rw [buffPin_of_new hindex hfree hnew hget, if_neg (not_not.mpr rfl),
          hnext]
        rfl

theorem PinOutcome.frame_of_ok {activation : ℕ}
    {manager manager' : BufferManager frames} {file file' : StoreFile}
    {index : PageIndex} {frame : Option (Fin frames)}
    (h : PinOutcome activation manager file index .ok frame manager' file') :
    ∃ f, frame = some f ∧ manager.freelist = some f := by
  cases h with
  | hit hindex hfree hknown => exact ⟨_, rfl, hfree⟩
  | unread hindex hfree hnew hget hstatus => exact absurd rfl hstatus
  | taken hindex hfree hnew hget hnext => exact ⟨_, rfl, hfree⟩

theorem PinOutcome.frame_of_not_ok {activation : ℕ}
    {manager manager' : BufferManager frames} {file file' : StoreFile}
    {index : PageIndex} {status : Status} {frame : Option (Fin frames)}
    (h : PinOutcome activation manager file index status frame manager' file')
    (hstatus : status ≠ .ok) : frame = none := by
  cases h with
  | metaPage hindex => rfl
  | noFreeFrames hindex hfree => rfl
  | hit hindex hfree hknown => exact absurd rfl hstatus
  | unread hindex hfree hnew hget hstatus => rfl
  | taken hindex hfree hnew hget hnext => exact absurd rfl hstatus

theorem PinOutcome.frame_eq {activation : ℕ}
    {manager manager' : BufferManager frames} {file file' : StoreFile}
    {index : PageIndex} {status : Status} {f : Fin frames}
    (hcall : PinOutcome activation manager file index status (some f) manager'
      file') : manager.freelist = some f := by
  by_cases hstatus : status = .ok
  · subst hstatus
    obtain ⟨g, hg, hfree⟩ := hcall.frame_of_ok
    rwa [hg]
  · cases hcall.frame_of_not_ok hstatus

/-! ## What a pin leaves alone -/

section Pin

variable {activation : ℕ} {manager manager' : BufferManager frames}
  {file file' : StoreFile} {index : PageIndex} {status : Status}
  {frame : Option (Fin frames)}

/-- A pin does not move the head of the free list. -/
theorem PinOutcome.freelist_eq
    (h : PinOutcome activation manager file index status frame manager'
      file') : manager'.freelist = manager.freelist := by
  cases h with
  | metaPage hindex => rfl
  | noFreeFrames hindex hfree => rfl
  | hit hindex hfree hknown => rfl
  | unread hindex hfree hnew hget hstatus => rfl
  | taken hindex hfree hnew hget hnext => rfl

theorem PinOutcome.store_eq
    (h : PinOutcome activation manager file index status frame manager'
      file') : manager'.store = manager.store := by
  cases h with
  | metaPage hindex => rfl
  | noFreeFrames hindex hfree => rfl
  | hit hindex hfree hknown => rfl
  | unread hindex hfree hnew hget hstatus => rfl
  | taken hindex hfree hnew hget hnext => rfl

/-- A pin that fails changes the state of no frame. -/
theorem PinOutcome.state_of_failed
    (h : PinOutcome activation manager file index status frame manager'
      file') (hstatus : status ≠ .ok) : manager'.state = manager.state := by
  cases h with
  | metaPage hindex => rfl
  | noFreeFrames hindex hfree => rfl
  | hit hindex hfree hknown => rfl
  | unread hindex hfree hnew hget hread => rfl
  | taken hindex hfree hnew hget hnext => exact absurd rfl hstatus

end Pin

/-! ## `buff_unpin` -/

/-- The outcomes of `buff_unpin`. -/
inductive UnpinOutcome (manager : BufferManager frames) (f : Fin frames) :
    Status → BufferManager frames → Prop
  | dirty (removed : Bool × LookupTable)
      (hstate : manager.state f = .pinnedDirty)
      (hremove : tableRemove manager.lookupTable .heap = some removed) :
      UnpinOutcome manager f .ok ((manager.pushDirty f).setTable removed.2)
  | clean (removed : Bool × LookupTable) (hstate : manager.state f = .pinned)
      (hremove : tableRemove manager.lookupTable .heap = some removed) :
      UnpinOutcome manager f .ok ((manager.pushFree f).setTable removed.2)
  | refused (hstate : ¬(manager.state f).IsPinned) :
      UnpinOutcome manager f .err manager

/-- A dirty frame goes to the write-back list. -/
theorem buffUnpin_of_dirty {manager : BufferManager frames} {f : Fin frames}
    (hstate : manager.state f = .pinnedDirty) :
    buffUnpin manager f = (tableRemove manager.lookupTable .heap).map
      fun removed => (.ok, (manager.pushDirty f).setTable removed.2) := by
  have hpush : ∀ table head,
      ((((manager.setState f .unpinnedDirty).setTable table).setWriteback
        (some f)).setNext f head) =
      ((manager.setWriteback (some f)).setMeta f
        { state := .unpinnedDirty, index := manager.index f,
          nextFreeOrDirty := head }).setTable table := by
    intro table head
    simp [setNext, setWriteback, setTable, setState, setMeta,
      BufferManager.index]
  have hstate' : (manager.metaframes f).state = .pinnedDirty := hstate
  simp only [buffUnpin, hstate', lookupTable_setState]
  cases tableRemove manager.lookupTable .heap with
  | none => rfl
  | some removed =>
      simp only [writeback_setTable, writeback_setState, Option.map_some,
        hpush, pushDirty]
      cases hhead : manager.writeback <;> rfl

/-- A clean frame goes to the free list. -/
theorem buffUnpin_of_clean {manager : BufferManager frames} {f : Fin frames}
    (hstate : manager.state f = .pinned) :
    buffUnpin manager f = (tableRemove manager.lookupTable .heap).map
      fun removed => (.ok, (manager.pushFree f).setTable removed.2) := by
  have hpush : ∀ table head,
      ((((manager.setState f .unpinned).setTable table).setFreelist
        (some f)).setNext f head) =
      ((manager.setFreelist (some f)).setMeta f
        { state := .unpinned, index := manager.index f,
          nextFreeOrDirty := head }).setTable table := by
    intro table head
    simp [setNext, setFreelist, setTable, setState, setMeta,
      BufferManager.index]
  have hstate' : (manager.metaframes f).state = .pinned := hstate
  simp only [buffUnpin, hstate', lookupTable_setState]
  cases tableRemove manager.lookupTable .heap with
  | none => rfl
  | some removed =>
      simp only [freelist_setTable, freelist_setState, Option.map_some,
        hpush, pushFree]
      cases hhead : manager.freelist <;> rfl

theorem buffUnpin_of_not_pinned {manager : BufferManager frames}
    {f : Fin frames} (hstate : ¬(manager.state f).IsPinned) :
    buffUnpin manager f = some (.err, manager) := by
  unfold buffUnpin
  split
  next h => exact absurd (Or.inr h) hstate
  next h => exact absurd (Or.inl h) hstate
  next => rfl

theorem unpinOutcome_of_buffUnpin {manager manager' : BufferManager frames}
    {f : Fin frames} {status : Status}
    (h : buffUnpin manager f = some (status, manager')) :
    UnpinOutcome manager f status manager' := by
  by_cases hpinned : (manager.state f).IsPinned
  · rcases hpinned with hstate | hstate
    · rw [buffUnpin_of_clean hstate] at h
      obtain ⟨removed, hremove, h⟩ := Option.map_eq_some_iff.mp h
      cases h
      exact .clean removed hstate hremove
    · rw [buffUnpin_of_dirty hstate] at h
      obtain ⟨removed, hremove, h⟩ := Option.map_eq_some_iff.mp h
      cases h
      exact .dirty removed hstate hremove
  · rw [buffUnpin_of_not_pinned hpinned] at h
    cases h
    exact .refused hpinned

/-! ## `buff_alloc_frame` -/

/-- The outcomes of `buff_alloc_frame`. -/
inductive AllocOutcome (activation : ℕ) (manager : BufferManager frames)
    (file : StoreFile) : Bool → Status → Option (Fin frames × PageIndex) →
      BufferManager frames → StoreFile → Prop
  | noPair : AllocOutcome activation manager file false .err none manager file
  | refused {status : Status} {page : PageIndex} {file' : StoreFile}
      (halloc : allocPage none manager.store file = (status, page, file'))
      (hstatus : status ≠ .ok) :
      AllocOutcome activation manager file true status none manager file'
  | unpinned {page : PageIndex} {status : Status} {frame : Option (Fin frames)}
      {manager' : BufferManager frames} {file₁ file' : StoreFile}
      (halloc : allocPage none manager.store file = (.ok, page, file₁))
      (hpin : PinOutcome activation manager file₁ page status frame manager'
        file') (hstatus : status ≠ .ok) :
      AllocOutcome activation manager file true status none manager' file'
  | pinned {page : PageIndex} {f : Fin frames}
      {manager' : BufferManager frames} {file₁ file' : StoreFile}
      (halloc : allocPage none manager.store file = (.ok, page, file₁))
      (hpin : PinOutcome activation manager file₁ page .ok (some f) manager'
        file') :
      AllocOutcome activation manager file true .ok (some (f, page)) manager'
        file'

theorem allocOutcome_of_buffAllocFrame {activation : ℕ}
    {manager manager' : BufferManager frames} {file file' : StoreFile}
    {pageFrame : Bool} {status : Status}
    {pair : Option (Fin frames × PageIndex)}
    (h : buffAllocFrame activation manager file pageFrame =
      some (status, pair, manager', file')) :
    AllocOutcome activation manager file pageFrame status pair manager'
      file' := by
  cases pageFrame with
  | false =>
    cases h
    exact .noPair
  | true =>
    unfold buffAllocFrame at h
    rw [if_neg (by decide)] at h
    obtain ⟨⟨pagealloc, page, file₁⟩, halloc⟩ : ∃ result,
      allocPage none manager.store file = result := ⟨_, rfl⟩
    simp only [halloc] at h
    split at h
    next hstatus =>
      cases h
      exact .refused halloc hstatus
    next hstatus =>
      obtain rfl := not_not.mp hstatus
      split at h
      next => cases h
      next framepin frame manager₁ file₂ hpin =>
        rw [buffPin_eq_some_iff] at hpin
        split at h
        next hframepin =>
          cases h
          exact .unpinned halloc hpin hframepin
        next hframepin =>
          obtain rfl := not_not.mp hframepin
          obtain ⟨f, rfl, -⟩ := hpin.frame_of_ok
          cases h
          exact .pinned halloc hpin

/-- Where no page can be allocated, nothing is pinned. -/
theorem buffAllocFrame_of_refused {activation : ℕ}
    {manager : BufferManager frames} {file file₁ : StoreFile}
    {page : PageIndex} {status : Status}
    (halloc : allocPage none manager.store file = (status, page, file₁))
    (hstatus : status ≠ .ok) :
    buffAllocFrame activation manager file true =
      some (status, none, manager, file₁) := by
  simp [buffAllocFrame, halloc, hstatus]

/-- A page that was allocated is pinned; its page and frame are returned if that
succeeds. -/
theorem buffAllocFrame_of_alloc {activation : ℕ}
    {manager : BufferManager frames} {file file₁ : StoreFile}
    {page : PageIndex}
    (halloc : allocPage none manager.store file = (.ok, page, file₁)) :
    buffAllocFrame activation manager file true =
      (buffPin activation manager file₁ page).map fun result =>
        (result.1, if result.1 = .ok then result.2.1.map fun f => (f, page)
          else none, result.2.2) := by
  unfold buffAllocFrame
  rw [if_neg (by decide)]
  simp only [halloc]
  rw [if_neg (not_not.mpr rfl)]
  cases buffPin activation manager file₁ page with
  | none => rfl
  | some result =>
      obtain ⟨status, frame, manager', file'⟩ := result
      by_cases hstatus : status = .ok
      · simp [hstatus]
      · simp [hstatus]

theorem buffAllocFrame_of_unpinned {activation : ℕ}
    {manager manager' : BufferManager frames} {file file₁ file' : StoreFile}
    {page : PageIndex} {status : Status} {frame : Option (Fin frames)}
    (halloc : allocPage none manager.store file = (.ok, page, file₁))
    (hpin : PinOutcome activation manager file₁ page status frame manager'
      file') (hstatus : status ≠ .ok) :
    buffAllocFrame activation manager file true =
      some (status, none, manager', file') := by
  rw [buffAllocFrame_of_alloc halloc, buffPin_eq_some_iff.mpr hpin]
  simp [hstatus]

theorem buffAllocFrame_of_pin {activation : ℕ}
    {manager manager' : BufferManager frames} {file file₁ file' : StoreFile}
    {page : PageIndex} {f : Fin frames}
    (halloc : allocPage none manager.store file = (.ok, page, file₁))
    (hpin : PinOutcome activation manager file₁ page .ok (some f) manager'
      file') :
    buffAllocFrame activation manager file true =
      some (.ok, some (f, page), manager', file') := by
  rw [buffAllocFrame_of_alloc halloc, buffPin_eq_some_iff.mpr hpin]
  rfl

/-- The page `buff_alloc_frame` goes on to pin is the one it has allocated. -/
theorem forall_alloc_iff {store : Option Backing} {file file₁ : StoreFile}
    {page : PageIndex} {P : PageIndex → StoreFile → Prop}
    (halloc : allocPage none store file = (.ok, page, file₁)) :
    (true = true → ∀ page₂ file₂,
      allocPage none store file = (.ok, page₂, file₂) → P page₂ file₂) ↔
      P page file₁ := by
  constructor
  · intro hall
    exact hall rfl page file₁ halloc
  · intro hP _ page₂ file₂ halloc'
    rw [halloc] at halloc'
    cases halloc'
    exact hP

section Keeps

variable {activation : ℕ} {manager manager' : BufferManager frames}
  {file file' : StoreFile} {pageFrame : Bool} {status : Status}
  {pair : Option (Fin frames × PageIndex)} {P : BufferManager frames → Prop}

/-- What every pin keeps, `buff_alloc_frame` keeps. -/
theorem AllocOutcome.keeps
    (hcall : AllocOutcome activation manager file pageFrame status pair
      manager' file') (h : P manager)
    (hkeeps : ∀ {file₁ page status frame manager' file'},
      PinOutcome activation manager file₁ page status frame manager' file' →
      P manager') : P manager' := by
  cases hcall with
  | noPair => exact h
  | refused halloc hstatus => exact h
  | unpinned halloc hpin hstatus => exact hkeeps hpin
  | pinned halloc hpin => exact hkeeps hpin

/-- What a pin keeps exactly under a guard, `buff_alloc_frame` keeps exactly if
the page it allocates meets the guard. -/
theorem AllocOutcome.keeps_iff {guard : StoreFile → PageIndex → Prop}
    (hcall : AllocOutcome activation manager file pageFrame status pair
      manager' file') (h : P manager)
    (hkeeps : ∀ {file₁ page status frame manager' file'},
      PinOutcome activation manager file₁ page status frame manager' file' →
      (P manager' ↔ guard file₁ page)) :
    P manager' ↔ (pageFrame = true → ∀ page file₁,
      allocPage none manager.store file = (.ok, page, file₁) →
        guard file₁ page) := by
  cases hcall with
  | noPair => exact iff_of_true h nofun
  | refused halloc hstatus =>
      refine iff_of_true h ?_
      intro _ page file₁ halloc'
      rw [halloc] at halloc'
      exact absurd (congrArg Prod.fst halloc') hstatus
  | unpinned halloc hpin hstatus =>
      rw [forall_alloc_iff halloc]
      exact hkeeps hpin
  | pinned halloc hpin =>
      rw [forall_alloc_iff halloc]
      exact hkeeps hpin

end Keeps

/-! ## `buff_free_frame` and `buff_mark_page` -/

/-- The outcomes of `buff_free_frame`. -/
inductive FreeOutcome (manager : BufferManager frames) (file : StoreFile) :
    Option (Fin frames) → Status → BufferManager frames → StoreFile → Prop
  | noFrame : FreeOutcome manager file none .err manager file
  | freed {f : Fin frames} {status : Status} {file' : StoreFile}
      (removed : Bool × LookupTable)
      (hfree : freePage manager.store file (manager.index f) =
        (status, file'))
      (hremove : tableRemove manager.lookupTable .heap = some removed) :
      FreeOutcome manager file (some f) status
        ((manager.pushFree f).setTable removed.2) file'

/-- The state a frame is freed in does not matter. -/
theorem buffUnpin_setState_pinned (manager : BufferManager frames)
    (f : Fin frames) :
    buffUnpin (manager.setState f .pinned) f =
      (tableRemove manager.lookupTable .heap).map
        fun removed => (.ok, (manager.pushFree f).setTable removed.2) := by
  have hstate : (manager.setState f .pinned).state f = .pinned := by
    rw [state_setState, Function.update_self]
  have hpush : (manager.setState f .pinned).pushFree f =
      manager.pushFree f := by
    simp [pushFree, setFreelist, setState, setMeta, BufferManager.index]
  rw [buffUnpin_of_clean hstate, hpush]
  rfl

theorem buffFreeFrame_of_remove {manager : BufferManager frames}
    {file file' : StoreFile} {f : Fin frames} {status : Status}
    {removed : Bool × LookupTable}
    (hfree : freePage manager.store file (manager.index f) = (status, file'))
    (hremove : tableRemove manager.lookupTable .heap = some removed) :
    buffFreeFrame manager file (some f) =
      some (status, (manager.pushFree f).setTable removed.2, file') := by
  have hfree' : freePage ((manager.pushFree f).setTable removed.2).store file
      (manager.metaframes f).index = (status, file') := hfree
  simp only [buffFreeFrame, buffUnpin_setState_pinned, hremove,
    Option.map_some, hfree']
  rw [if_neg (not_not.mpr rfl)]
  split
  next => rfl
  next hstatus => rw [not_not.mp hstatus]

theorem freeOutcome_of_buffFreeFrame {manager manager' : BufferManager frames}
    {file file' : StoreFile} {frame : Option (Fin frames)} {status : Status}
    (h : buffFreeFrame manager file frame = some (status, manager', file')) :
    FreeOutcome manager file frame status manager' file' := by
  cases frame with
  | none =>
      cases h
      exact .noFrame
  | some f =>
      obtain ⟨⟨pageFree, file₁⟩, hfree⟩ : ∃ result,
        freePage manager.store file (manager.index f) = result := ⟨_, rfl⟩
      cases hremove : tableRemove manager.lookupTable .heap with
      | none =>
          simp [buffFreeFrame, buffUnpin_setState_pinned, hremove] at h
      | some removed =>
          rw [buffFreeFrame_of_remove hfree hremove] at h
          cases h
          exact .freed removed hfree hremove

/-- The outcomes of `buff_mark_page`. -/
inductive MarkOutcome (manager : BufferManager frames) (f : Fin frames) :
    Status → BufferManager frames → Prop
  | clean (hstate : manager.state f = .pinned) :
      MarkOutcome manager f .ok (manager.setState f .pinnedDirty)
  | dirty (hstate : manager.state f = .pinnedDirty) :
      MarkOutcome manager f .ok manager
  | refused (hstate : ¬(manager.state f).IsPinned) :
      MarkOutcome manager f .markErr manager

theorem markOutcome_of_buffMarkPage {manager manager' : BufferManager frames}
    {f : Fin frames} {status : Status}
    (h : buffMarkPage manager f = (status, manager')) :
    MarkOutcome manager f status manager' := by
  unfold buffMarkPage at h
  split at h
  next hstate =>
    cases h
    exact .clean hstate
  next hstate =>
    cases h
    exact .dirty hstate
  next hpinned hdirty =>
    cases h
    exact .refused (not_or.mpr ⟨hpinned, hdirty⟩)

end NickDB

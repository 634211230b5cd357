import NickDB.Buffer.Writeback
import NickDB.Store.Wellformed
import NickDB.Support.Runs

/-!
# Sessions with a buffer manager

The calls of the clients of a buffer manager, each with its arguments and what
it returned, as the steps of a transition system on the manager and the file.
A call that crashes or does not return is no step.

Which frames the clients hold is not part of the manager's state; it follows
from the calls and is kept next to it.
-/

namespace NickDB

open BufferManager

variable {frames : ℕ}

/-- The manager and the open file. -/
@[ext] structure World (frames : ℕ) where
  manager : BufferManager frames
  file : StoreFile

/-- One call with its result, or bytes that a client writes to a frame. -/
inductive BufferEvent (frames : ℕ)
  | pin (activation : ℕ) (index : PageIndex) (status : Status)
      (frame : Option (Fin frames))
  | allocFrame (activation : ℕ) (pageFrame : Bool) (status : Status)
      (pair : Option (Fin frames × PageIndex))
  | write (frame : Fin frames) (page : Page)
  | mark (frame : Fin frames) (status : Status)
  | unpin (frame : Fin frames) (status : Status)
  | freeFrame (frame : Option (Fin frames)) (status : Status)
  | flushAll (status : Status)

/-- The call of an event takes `s` to `t`. -/
def bufferStep (s : World frames) (event : BufferEvent frames)
    (t : World frames) : Prop :=
  match event with
  | .pin activation index status frame =>
      buffPin activation s.manager s.file index =
        some (status, frame, t.manager, t.file)
  | .allocFrame activation pageFrame status pair =>
      buffAllocFrame activation s.manager s.file pageFrame =
        some (status, pair, t.manager, t.file)
  | .write frame page =>
      t.manager = s.manager.setBuffer frame page ∧ t.file = s.file
  | .mark frame status =>
      buffMarkPage s.manager frame = (status, t.manager) ∧ t.file = s.file
  | .unpin frame status =>
      buffUnpin s.manager frame = some (status, t.manager) ∧ t.file = s.file
  | .freeFrame frame status =>
      buffFreeFrame s.manager s.file frame =
        some (status, t.manager, t.file)
  | .flushAll status =>
      buffFlushAll s.manager s.file = some (status, t.manager, t.file)

/-- `buff_flush_all` returns when the loop ends, and always with `ok`. -/
theorem flushAll_eq_some {manager manager' : BufferManager frames}
    {file file' : StoreFile} {status : Status}
    (h : buffFlushAll manager file = some (status, manager', file')) :
    status = .ok ∧ writebackLoop manager file = some (manager', file') := by
  obtain ⟨⟨m, file₁⟩, hloop, hresult⟩ := Option.map_eq_some_iff.mp h
  cases hresult
  exact ⟨rfl, hloop⟩

/-- With nothing to write back a flush changes nothing. -/
theorem buffFlushAll_of_empty {manager : BufferManager frames}
    (file : StoreFile) (h : manager.writeback = none) :
    buffFlushAll manager file = some (.ok, manager, file) := by
  have hstart : (writebackAfter manager file 0).metaframe = none := h
  have hstill := writebackAfter_of_le manager file (Nat.zero_le frames) hstart
  have hloop : writebackLoop manager file = some (manager, file) := by
    refine (writebackLoop_eq_some_iff ..).mpr ⟨⟨[], h⟩, ?_, ?_⟩
    · rw [hstill, writebackAfter_zero]
    · rw [hstill, writebackAfter_zero]
  rw [buffFlushAll, hloop]
  rfl

/-- A pin does not write to the store. -/
theorem PinOutcome.image_eq {activation : ℕ}
    {manager manager' : BufferManager frames} {file file' : StoreFile}
    {index : PageIndex} {status : Status} {frame : Option (Fin frames)}
    (h : PinOutcome activation manager file index status frame manager'
      file') : file'.image = file.image := by
  cases h with
  | metaPage hindex => rfl
  | noFreeFrames hindex hfree => rfl
  | hit hindex hfree hknown => rfl
  | @unread f status dest file' hindex hfree hnew hget hstatus =>
      have himage := getPage_image (manager.buffer f) manager.store file index
      rwa [hget] at himage
  | @taken f next dest file' hindex hfree hnew hget hnext =>
      have himage := getPage_image (manager.buffer f) manager.store file index
      rwa [hget] at himage

/-- A pin does not change a file on which all transfers succeed. -/
theorem PinOutcome.file_eq {activation : ℕ}
    {manager manager' : BufferManager frames} {file file' : StoreFile}
    {index : PageIndex} {status : Status} {frame : Option (Fin frames)}
    (hschedule : file.schedule = [])
    (hcall : PinOutcome activation manager file index status frame manager'
      file') : file' = file := by
  cases hcall with
  | metaPage hindex => rfl
  | noFreeFrames hindex hfree => rfl
  | hit hindex hfree hknown => rfl
  | unread hindex hfree hnew hget hstatus => exact getPage_file hschedule hget
  | taken hindex hfree hnew hget hnext => exact getPage_file hschedule hget

/-! ## The keys of the lookup table -/

/-- No key of the table is an address on the heap. -/
def StackKeys (manager : BufferManager frames) : Prop :=
  tableLookup manager.lookupTable .heap = none

theorem tableRemove_of_stackKeys {manager : BufferManager frames}
    (h : StackKeys manager) : tableRemove manager.lookupTable .heap =
      some (false, manager.lookupTable) := by
  rw [tableRemove, h]

theorem StackKeys.removed {manager : BufferManager frames}
    (h : StackKeys manager) {removed : Bool × LookupTable}
    (hremove : tableRemove manager.lookupTable .heap = some removed) :
    removed.2 = manager.lookupTable := by
  rw [tableRemove_of_stackKeys h] at hremove
  cases hremove
  rfl

theorem stackKeys_pin {activation : ℕ} {manager manager' : BufferManager frames}
    {file file' : StoreFile} {index : PageIndex} {status : Status}
    {frame : Option (Fin frames)} (h : StackKeys manager)
    (hcall : PinOutcome activation manager file index status frame manager'
      file') : StackKeys manager' := by
  have hlearn : StackKeys (manager.learn activation) := by
    have hne : (TablePointer.heap == .pageidxptr activation) = false := rfl
    unfold StackKeys tableLookup learn setTable
    rw [List.lookup_cons, hne]
    exact h
  cases hcall with
  | metaPage hindex => exact h
  | noFreeFrames hindex hfree => exact h
  | hit hindex hfree hknown => exact h
  | unread hindex hfree hnew hget hstatus => exact hlearn
  | taken hindex hfree hnew hget hnext => exact hlearn

/-- Only `buff_pin` adds keys, and it adds addresses of its own variables. -/
theorem StackKeys.step {s t : World frames} {event : BufferEvent frames}
    (h : StackKeys s.manager) (hcall : bufferStep s event t) :
    StackKeys t.manager := by
  obtain ⟨manager, file⟩ := s
  obtain ⟨manager', file'⟩ := t
  have hkept : ∀ {removed}, tableRemove manager.lookupTable .heap =
      some removed → tableLookup removed.2 .heap = none := by
    intro removed hremove
    rw [h.removed hremove]
    exact h
  cases event with
  | pin activation index status frame =>
      exact stackKeys_pin h (buffPin_eq_some_iff.mp hcall)
  | allocFrame activation pageFrame status pair =>
      exact (allocOutcome_of_buffAllocFrame hcall).keeps h (stackKeys_pin h)
  | write frame page =>
      obtain ⟨rfl, -⟩ := hcall
      exact h
  | mark frame status =>
      cases markOutcome_of_buffMarkPage hcall.1 with
      | clean hstate => exact h
      | dirty hstate => exact h
      | refused hstate => exact h
  | unpin frame status =>
      cases unpinOutcome_of_buffUnpin hcall.1 with
      | dirty removed hstate hremove => exact hkept hremove
      | clean removed hstate hremove => exact hkept hremove
      | refused hstate => exact h
  | freeFrame frame status =>
      cases freeOutcome_of_buffFreeFrame hcall with
      | noFrame => exact h
      | freed removed hfree hremove => exact hkept hremove
  | flushAll status =>
      have hsame := same_of_loop _ _ (flushAll_eq_some hcall).2
      rw [StackKeys, hsame.lookupTable]
      exact h

/-- `buff_unpin` never crashes. -/
theorem StackKeys.exists_unpin {manager : BufferManager frames}
    (h : StackKeys manager) (f : Fin frames) :
    ∃ status manager', buffUnpin manager f = some (status, manager') := by
  by_cases hpinned : (manager.state f).IsPinned
  · rcases hpinned with hstate | hstate
    · rw [buffUnpin_of_clean hstate, tableRemove_of_stackKeys h]
      exact ⟨_, _, rfl⟩
    · rw [buffUnpin_of_dirty hstate, tableRemove_of_stackKeys h]
      exact ⟨_, _, rfl⟩
  · exact ⟨_, _, buffUnpin_of_not_pinned hpinned⟩

/-! ## Holds -/

/-- The frames that clients have got and not given back, each with the page it
was asked for. -/
abbrev Holds (frames : ℕ) := List (Fin frames × PageIndex)

/-- One hold on a frame is given back. -/
def release (f : Fin frames) (held : Holds frames) : Holds frames :=
  held.eraseP fun hold => hold.1 = f

/-- The holds after a call. -/
def holdsAfter (held : Holds frames) : BufferEvent frames → Holds frames
  | .pin _ index .ok (some f) => (f, index) :: held
  | .allocFrame _ _ .ok (some pair) => pair :: held
  | .unpin f _ => release f held
  | .freeFrame (some f) _ => release f held
  | _ => held

@[simp] theorem holdsAfter_pin_none (held : Holds frames) (activation : ℕ)
    (index : PageIndex) (status : Status) :
    holdsAfter held (.pin activation index status none) = held := by
  cases status <;> rfl

@[simp] theorem holdsAfter_allocFrame_none (held : Holds frames)
    (activation : ℕ) (pageFrame : Bool) (status : Status) :
    holdsAfter held (.allocFrame activation pageFrame status none) = held := by
  cases status <;> rfl

/-- A step together with the holds. -/
def clientStep (s : World frames × Holds frames) (event : BufferEvent frames)
    (t : World frames × Holds frames) : Prop :=
  bufferStep s.1 event t.1 ∧ t.2 = holdsAfter s.2 event

/-- The manager and the file at the start, over the store `image`. -/
def startWorld (store : Backing) (hframes : 0 < frames) (file : StoreFile) :
    World frames :=
  ⟨buffCreate store hframes, file⟩

theorem state_buffCreate (store : Backing) (hframes : 0 < frames)
    (f : Fin frames) : (buffCreate store hframes).state f = .unpinned := by
  simp only [BufferManager.state, buffCreate]
  split <;> rfl

theorem index_buffCreate (store : Backing) (hframes : 0 < frames)
    (f : Fin frames) : (buffCreate store hframes).index f = 0 := by
  simp only [BufferManager.index, buffCreate]
  split <;> rfl

/-! ## Small sessions -/

/-- Two frames over a store of three blank pages, of which page 0 is the
metadata page. -/
def smallWorld : World 2 :=
  startWorld ⟨3⟩ (by decide) (reliable (blankStore 2))

theorem getPage_blankStore {k : ℕ} (hpos : 1 ≤ k) (hk : k ≤ 2)
    (dest : Page) :
    getPage dest (some ⟨3⟩) (reliable (blankStore 2)) (Int64.ofNat k) =
      (.ok, blankPage, reliable (blankStore 2)) := by
  rw [(storeAt_blankStore (by decide)).get_page ⟨3⟩ hpos (by omega),
    pageAt_blankStore hpos hk]

/-- Frame 0 is taken for the page number `k`.  It is still the head of the free
list, and has no link any more. -/
def pinnedWorld (k : ℕ) : World 2 where
  manager := ((smallWorld.manager.learn 0).setBuffer 0 blankPage).claim 0
    (Int64.ofNat k) none
  file := reliable (blankStore 2)

theorem pageIndex_ne_metadata {k : ℕ} (hpos : 1 ≤ k) (hk : k ≤ 2) :
    Int64.ofNat k ≠ metadataIndex :=
  pageIndex_ne_zero hpos (by simp only [pageLimit]; omega)

/-- The first pin takes frame 0, whatever the file holds. -/
theorem smallWorld_takes {index : PageIndex} {page : Page}
    {file file' : StoreFile} (hindex : index ≠ metadataIndex)
    (hget : getPage blankPage (some ⟨3⟩) file index = (.ok, page, file')) :
    PinOutcome 0 smallWorld.manager file index .ok (some 0)
      (((smallWorld.manager.learn 0).setBuffer 0 page).claim 0 index none)
      file' := by
  have hnew : ¬smallWorld.manager.Knows 0 := Bool.false_ne_true
  have hnext : smallWorld.manager.link 0 = some 1 := rfl
  exact .taken hindex rfl hnew hget hnext

theorem smallWorld_pinOutcome {k : ℕ} (hpos : 1 ≤ k) (hk : k ≤ 2) :
    PinOutcome 0 smallWorld.manager smallWorld.file (Int64.ofNat k) .ok
      (some 0) (pinnedWorld k).manager (pinnedWorld k).file :=
  smallWorld_takes (pageIndex_ne_metadata hpos hk)
    (getPage_blankStore hpos hk blankPage)

/-- The first pin. -/
theorem smallWorld_pin {k : ℕ} (hpos : 1 ≤ k) (hk : k ≤ 2) :
    bufferStep smallWorld (.pin 0 (Int64.ofNat k) .ok (some 0))
      (pinnedWorld k) :=
  buffPin_eq_some_iff.mpr (smallWorld_pinOutcome hpos hk)

/-- A second pin from the same place finds its key and gets the same frame,
whatever page it asks for. -/
theorem pinnedWorld_pin (k : ℕ) {index : PageIndex}
    (hindex : index ≠ metadataIndex) :
    bufferStep (pinnedWorld k) (.pin 0 index .ok (some 0)) (pinnedWorld k) :=
  buffPin_of_hit hindex rfl rfl

/-- A page of ones. -/
def onesPage : Page := fun _ => 1

/-- A client has written to frame 0. -/
def writtenWorld (k : ℕ) (page : Page) : World 2 where
  manager := (pinnedWorld k).manager.setBuffer 0 page
  file := reliable (blankStore 2)

/-- It has marked the frame, too. -/
def dirtyWorld (k : ℕ) (page : Page) : World 2 where
  manager := (writtenWorld k page).manager.setState 0 .pinnedDirty
  file := reliable (blankStore 2)

/-- Frame 0 has been marked with the bytes that were read. -/
def markedWorld : World 2 where
  manager := (pinnedWorld 1).manager.setState 0 .pinnedDirty
  file := reliable (blankStore 2)

/-- Frame 0 with page 1 is on the write-back list. -/
def listedWorld : World 2 where
  manager := markedWorld.manager.pushDirty 0
  file := reliable (blankStore 2)

theorem pinnedWorld_write (k : ℕ) (page : Page) :
    bufferStep (pinnedWorld k) (.write 0 page) (writtenWorld k page) :=
  ⟨rfl, rfl⟩

theorem writtenWorld_mark (k : ℕ) (page : Page) :
    bufferStep (writtenWorld k page) (.mark 0 .ok) (dirtyWorld k page) := by
  have hstate : ((writtenWorld k page).manager.metaframes 0).state =
      .pinned := rfl
  refine ⟨?_, rfl⟩
  simp only [buffMarkPage, hstate]
  rfl

/-- Unpinning frame 0 while it is dirty. -/
theorem dirtyWorld_unpin (k : ℕ) (page : Page) :
    bufferStep (dirtyWorld k page) (.unpin 0 .ok)
      ⟨(dirtyWorld k page).manager.pushDirty 0, reliable (blankStore 2)⟩ := by
  have hstate : (dirtyWorld k page).manager.state 0 = .pinnedDirty := by
    rw [dirtyWorld, state_setState, Function.update_self]
  exact ⟨buffUnpin_of_dirty hstate, rfl⟩

theorem pinnedWorld_mark :
    bufferStep (pinnedWorld 1) (.mark 0 .ok) markedWorld :=
  ⟨rfl, rfl⟩

theorem markedWorld_unpin :
    bufferStep markedWorld (.unpin 0 .ok) listedWorld := by
  have hstate : markedWorld.manager.state 0 = .pinnedDirty := by
    rw [markedWorld, state_setState, Function.update_self]
  exact ⟨buffUnpin_of_dirty hstate, rfl⟩

theorem index_listedWorld : listedWorld.manager.index 0 = Int64.ofNat 1 := by
  simp [listedWorld, markedWorld, pinnedWorld]

/-- Freeing frame 0 while it is on the write-back list. -/
theorem listedWorld_free {image : ByteFile UInt8}
    (hfree : freePage (some ⟨3⟩) (reliable (blankStore 2)) (Int64.ofNat 1) =
      (.ok, reliable image)) :
    bufferStep listedWorld (.freeFrame (some 0) .ok)
      ⟨listedWorld.manager.pushFree 0, reliable image⟩ := by
  have hremove : tableRemove listedWorld.manager.lookupTable .heap =
      some (false, listedWorld.manager.lookupTable) := rfl
  refine buffFreeFrame_of_remove ?_ hremove
  rw [index_listedWorld]
  exact hfree

/-- Unpinning frame 0 while it is clean. -/
theorem pinnedWorld_unpin (k : ℕ) :
    bufferStep (pinnedWorld k) (.unpin 0 .ok)
      ⟨(pinnedWorld k).manager.pushFree 0, reliable (blankStore 2)⟩ := by
  have hstate : (pinnedWorld k).manager.state 0 = .pinned := by
    rw [pinnedWorld, state_claim, Function.update_self]
  exact ⟨buffUnpin_of_clean hstate, rfl⟩

end NickDB

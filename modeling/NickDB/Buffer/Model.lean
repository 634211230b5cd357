import NickDB.Store.Model
import Mathlib.Logic.Function.Iterate

/-!
# The buffer manager

The functions of `buffer_manager.c`.  A `meta_frame *` and a `frame *` point
into two arrays of the same length, so both are represented by the number of
the element, and a null pointer by `none`.  A call that runs into undefined
behaviour (following a null pointer, or giving `free` a pointer that `malloc`
did not return) or into an endless loop has the result `none`.

The lookup table is a GLib hash table without hash and equality functions, so
its keys are compared as pointers.  `buff_pin` looks up, and inserts, the
address of a local variable; which address that is depends on where on the
stack the call runs, and `activation` names this place.

Every function first refuses a null manager with `STATUS_NO_MANAGER`; here the
manager is there.
-/

namespace NickDB

/-! ## The lookup table -/

/-- The pointers that occur as keys and values of the lookup table. -/
inductive TablePointer
  /-- `&pageidxptr`, in the call of `buff_pin` at some place on the stack. -/
  | pageidxptr (activation : ℕ)
  /-- `&frameidxptr`, in the same call. -/
  | frameidxptr (activation : ℕ)
  /-- A pointer that `calloc` has just returned. -/
  | heap
  deriving DecidableEq, Repr

/-- `GHashTable`: the keys with their values. -/
abbrev LookupTable := List (TablePointer × TablePointer)

/-- `g_hash_table_lookup`. -/
def tableLookup (table : LookupTable) (key : TablePointer) :
    Option TablePointer :=
  table.lookup key

/-- `g_hash_table_insert`, with `free` to destroy keys and values: whether the
key is new, and the table.  The value of a known key is replaced; the old value
and the key passed in are freed. -/
def tableInsert (table : LookupTable) (key value : TablePointer) :
    Option (Bool × LookupTable) :=
  match tableLookup table key with
  | none => some (true, (key, value) :: table)
  | some old =>
      if key = .heap ∧ old = .heap then
        some (false, table.map fun entry =>
          if entry.1 = key then (entry.1, value) else entry)
      else none

/-- `g_hash_table_remove`: whether the key was found, and the table.  A key
that is found is freed with its value. -/
def tableRemove (table : LookupTable) (key : TablePointer) :
    Option (Bool × LookupTable) :=
  match tableLookup table key with
  | none => some (false, table)
  | some value =>
      if key = .heap ∧ value = .heap then
        some (true, table.filter fun entry => entry.1 ≠ key)
      else none

/-- `g_hash_table_destroy` frees all keys and values. -/
def tableDestroy (table : LookupTable) : Option Unit :=
  if ∀ entry ∈ table, entry = (.heap, .heap) then some () else none

/-! ## The manager -/

/-- `meta_frame`. -/
structure MetaFrame (frames : ℕ) where
  state : FrameState
  index : PageIndex
  nextFreeOrDirty : Option (Fin frames)

/-- `buffer_manager`, with arrays of `frames` elements. -/
@[ext] structure BufferManager (frames : ℕ) where
  store : Option Backing
  buffer : Fin frames → Page
  metaframes : Fin frames → MetaFrame frames
  freelist : Option (Fin frames)
  writeback : Option (Fin frames)
  lookupTable : LookupTable

variable {frames : ℕ}

namespace BufferManager

/-- Assignment to `manager->buffer[f]`. -/
def setBuffer (manager : BufferManager frames) (f : Fin frames)
    (page : Page) : BufferManager frames :=
  { manager with buffer := Function.update manager.buffer f page }

/-- Assignment to `manager->metaframes[f]`. -/
def setMeta (manager : BufferManager frames) (f : Fin frames)
    (metaframe : MetaFrame frames) : BufferManager frames :=
  { manager with
    metaframes := Function.update manager.metaframes f metaframe }

/-- Assignment to `manager->metaframes[f].state`. -/
def setState (manager : BufferManager frames) (f : Fin frames)
    (state : FrameState) : BufferManager frames :=
  manager.setMeta f { manager.metaframes f with state := state }

/-- Assignment to `manager->metaframes[f].index`. -/
def setIndex (manager : BufferManager frames) (f : Fin frames)
    (index : PageIndex) : BufferManager frames :=
  manager.setMeta f { manager.metaframes f with index := index }

/-- Assignment to `manager->metaframes[f].next_free_or_dirty`. -/
def setNext (manager : BufferManager frames) (f : Fin frames)
    (next : Option (Fin frames)) : BufferManager frames :=
  manager.setMeta f { manager.metaframes f with nextFreeOrDirty := next }

/-- Assignment to `manager->freelist`. -/
def setFreelist (manager : BufferManager frames) (head : Option (Fin frames)) :
    BufferManager frames :=
  { manager with freelist := head }

/-- Assignment to `manager->writeback`. -/
def setWriteback (manager : BufferManager frames)
    (head : Option (Fin frames)) : BufferManager frames :=
  { manager with writeback := head }

/-- The manager with changed contents of its lookup table. -/
def setTable (manager : BufferManager frames) (table : LookupTable) :
    BufferManager frames :=
  { manager with lookupTable := table }

end BufferManager

/-- The manager `buff_create` sets up over an open store: all frames are free
and linked in their order.  The function itself passes a null pointer to
`open_backing` and never comes to this point. -/
def buffCreate (store : Backing) (hframes : 0 < frames) :
    BufferManager frames where
  store := some store
  buffer := fun _ => blankPage
  metaframes := fun i =>
    if h : (i : ℕ) + 1 < frames then
      { state := .unpinned, index := 0, nextFreeOrDirty := some ⟨i + 1, h⟩ }
    else { state := .unpinned, index := 0, nextFreeOrDirty := none }
  freelist := some ⟨0, hframes⟩
  writeback := none
  lookupTable := []

/-- `buffer_manager` while it is set up.  The head of the free list is a pointer
that need not lead into the array: for no frames `calloc` returns one as
well. -/
structure NewManager (n : ℕ) where
  store : Option Backing
  frames : ℕ
  buffer : Fin n → Page
  metaframes : Fin n → MetaFrame n
  freelist : Option ℕ
  writeback : Option (Fin n)
  lookupTable : LookupTable

/-- The manager and its arrays as `calloc` returns them. -/
def NewManager.zeroed (n : ℕ) : NewManager n where
  store := none
  frames := 0
  buffer := fun _ => blankPage
  metaframes := fun _ =>
    { state := .pinned, index := 0, nextFreeOrDirty := none }
  freelist := none
  writeback := none
  lookupTable := []

/-- One turn of the loop of `buff_create`. -/
def linkFrame {n : ℕ} (metaframes : Fin n → MetaFrame n) (i : Fin n) :
    Fin n → MetaFrame n :=
  Function.update metaframes i
    (if h : (i : ℕ) + 1 < n then
      { metaframes i with
        nextFreeOrDirty := some ⟨i + 1, h⟩, state := .unpinned }
    else { metaframes i with nextFreeOrDirty := none, state := .unpinned })

/-- `buff_create` from the allocation of the manager on. -/
def buffCreateOpened (store : Option Backing) (n : ℕ) : NewManager n :=
  let manager := NewManager.zeroed n
  let manager := { manager with store := store, frames := n }
  -- the address of the first element, if there is one or not
  let manager := { manager with freelist := some 0 }
  let manager :=
    { manager with
      metaframes := (List.finRange n).foldl linkFrame manager.metaframes }
  { manager with writeback := none, lookupTable := [] }

/-- `buff_create`: the status and what is left in `*manager`. -/
def buffCreateNamed (opens : List UInt8 → ℤ) (storename : List UInt8)
    (n : ℕ) : Option (Status × Option (NewManager n)) :=
  -- the source passes the null pointer it has just initialized
  match openBacking opens storename none with
  | none => none
  | some (backingStatus, store) =>
      if backingStatus ≠ .ok then some (.noBacking, none)
      else some (.ok, some (buffCreateOpened (some store) n))

/-! ## Pinning and unpinning -/

/-- `buff_pin`: the status, what is left in `*frame`, the manager and the file.
Of the frame at the head of the free list the bytes may be overwritten also
when the call fails. -/
def buffPin (activation : ℕ) (manager : BufferManager frames)
    (file : StoreFile) (index : PageIndex) :
    Option (Status × Option (Fin frames) × BufferManager frames × StoreFile) :=
  if index = metadataIndex then some (.metaPage, none, manager, file)
  else
    match manager.freelist with
    | none => some (.noFreeFrames, none, manager, file)
    | some freeFrame =>
        match tableLookup manager.lookupTable (.pageidxptr activation) with
        | some _ => some (.ok, some freeFrame, manager, file)
        | none =>
            match tableInsert manager.lookupTable (.pageidxptr activation)
                (.frameidxptr activation) with
            | none => none
            | some (insert, table) =>
                let manager := manager.setTable table
                if insert ≠ true then some (.err, none, manager, file)
                else
                  let (pinStatus, page, file) := getPage
                    (manager.buffer freeFrame) manager.store file index
                  let manager := manager.setBuffer freeFrame page
                  if pinStatus ≠ .ok then
                    some (pinStatus, none, manager, file)
                  else
                    match (manager.metaframes freeFrame).nextFreeOrDirty with
                    | none => none
                    | some next =>
                        -- the next meta frame is copied over the first one;
                        -- the head of the list stays where it is
                        let manager := manager.setMeta freeFrame
                          (manager.metaframes next)
                        let manager := manager.setState freeFrame .pinned
                        let manager := manager.setIndex freeFrame index
                        some (.ok, some freeFrame, manager, file)

/-- `buff_unpin`: the status and the manager. -/
def buffUnpin (manager : BufferManager frames) (frame : Fin frames) :
    Option (Status × BufferManager frames) :=
  match (manager.metaframes frame).state with
  | .pinnedDirty =>
      let manager := manager.setState frame .unpinnedDirty
      match tableRemove manager.lookupTable .heap with
      | none => none
      | some (_, table) =>
          let manager := manager.setTable table
          match manager.writeback with
          | some oldhead =>
              let manager := manager.setWriteback (some frame)
              some (.ok, manager.setNext frame (some oldhead))
          | none =>
              let manager := manager.setWriteback (some frame)
              some (.ok, manager.setNext frame none)
  | .pinned =>
      let manager := manager.setState frame .unpinned
      match tableRemove manager.lookupTable .heap with
      | none => none
      | some (_, table) =>
          let manager := manager.setTable table
          match manager.freelist with
          | some oldhead =>
              let manager := manager.setFreelist (some frame)
              some (.ok, manager.setNext frame (some oldhead))
          | none =>
              let manager := manager.setFreelist (some frame)
              some (.ok, manager.setNext frame none)
  | _ => some (.err, manager)

/-! ## Allocating, freeing and marking -/

/-- `buff_alloc_frame`: the status, what is left in `*page_frame`, the manager
and the file; `pageFrame` says whether the pointer is not null. -/
def buffAllocFrame (activation : ℕ) (manager : BufferManager frames)
    (file : StoreFile) (pageFrame : Bool) :
    Option (Status × Option (Fin frames × PageIndex) ×
      BufferManager frames × StoreFile) :=
  if pageFrame = false then some (.err, none, manager, file)
  else
    let (pagealloc, page, file) := allocPage none manager.store file
    if pagealloc ≠ .ok then some (pagealloc, none, manager, file)
    else
      match buffPin activation manager file page with
      | none => none
      | some (framepin, frame, manager, file) =>
          if framepin ≠ .ok then some (framepin, none, manager, file)
          else some (.ok, frame.map fun f => (f, page), manager, file)

/-- `buff_free_frame`: the status, the manager and the file. -/
def buffFreeFrame (manager : BufferManager frames) (file : StoreFile)
    (frame : Option (Fin frames)) :
    Option (Status × BufferManager frames × StoreFile) :=
  match frame with
  | none => some (.err, manager, file)
  | some frame =>
      let page := (manager.metaframes frame).index
      match buffUnpin (manager.setState frame .pinned) frame with
      | none => none
      | some (frameUnpin, manager) =>
          if frameUnpin ≠ .ok then some (frameUnpin, manager, file)
          else
            let (pageFree, file) := freePage manager.store file page
            if pageFree ≠ .ok then some (pageFree, manager, file)
            else some (.ok, manager, file)

/-- `buff_mark_page`: the status and the manager. -/
def buffMarkPage (manager : BufferManager frames) (frame : Fin frames) :
    Status × BufferManager frames :=
  match (manager.metaframes frame).state with
  | .pinned => (.ok, manager.setState frame .pinnedDirty)
  | .pinnedDirty => (.ok, manager)
  | _ => (.markErr, manager)

/-! ## Writing back -/

/-- The loop variable of the write-back loop, with the manager and the file. -/
structure Cursor (frames : ℕ) where
  metaframe : Option (Fin frames)
  manager : BufferManager frames
  file : StoreFile

/-- One turn of the write-back loop; past the end of the list nothing happens
any more. -/
def Cursor.next (cursor : Cursor frames) : Cursor frames :=
  match cursor.metaframe with
  | none => cursor
  | some metaframe =>
      let manager := cursor.manager
      let (put, file) := putPage (manager.buffer metaframe) manager.store
        cursor.file (manager.metaframes metaframe).index
      let manager :=
        if put = .ok then manager.setState metaframe .unpinned else manager
      { metaframe := (manager.metaframes metaframe).nextFreeOrDirty
        manager := manager
        file := file }

/-- The write-back loop after some turns. -/
def writebackAfter (manager : BufferManager frames) (file : StoreFile)
    (turns : ℕ) : Cursor frames :=
  Cursor.next^[turns] ⟨manager.writeback, manager, file⟩

/-- The write-back loop.  A list without a cycle has at most `frames` entries,
so a loop that is not over by then does not end. -/
def writebackLoop (manager : BufferManager frames) (file : StoreFile) :
    Option (BufferManager frames × StoreFile) :=
  let cursor := writebackAfter manager file frames
  if cursor.metaframe = none then some (cursor.manager, cursor.file) else none

/-- `buff_flush_all`: the status, the manager and the file. -/
def buffFlushAll (manager : BufferManager frames) (file : StoreFile) :
    Option (Status × BufferManager frames × StoreFile) :=
  (writebackLoop manager file).map fun (manager, file) => (.ok, manager, file)

/-- `buff_destroy`: the status and the file. -/
def buffDestroy (manager : BufferManager frames) (file : StoreFile) :
    Option (Status × StoreFile) :=
  match writebackLoop manager file with
  | none => none
  | some (manager, file) =>
      match tableDestroy manager.lookupTable with
      | none => none
      | some () => some (.ok, file)

end NickDB

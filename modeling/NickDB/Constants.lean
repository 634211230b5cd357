import Mathlib.Data.Nat.Notation

/-!
# Constants and shared types

The constants, status codes and frame states of `constants.h`.  A `page_index`
and a `byte_offset` are both `ssize_t`, that is, 64-bit signed words; signed
arithmetic on them is taken to wrap around.
-/

namespace NickDB

/-- `PAGESIZE`. -/
def pageSize : ℕ := 4096

/-- `page_index`: the number of a page of the store. -/
abbrev PageIndex := Int64

/-- `byte_offset`: a position in the file of the store. -/
abbrev ByteOffset := Int64

/-- The contents of a page, or of a frame that holds one. -/
abbrev Page := Fin pageSize → UInt8

/-- A page of zeros, as `calloc(1, PAGESIZE)` returns it. -/
def blankPage : Page := fun _ => 0

/-- `ERR_SET`. -/
abbrev errSet : Int64 := -1

/-- `EMPTY_LIST`: the link word that ends the list of free pages. -/
abbrev emptyList : ByteOffset := -1

/-- `STOREEXT`, that is `.store`. -/
def storeExt : List UInt8 := [46, 115, 116, 111, 114, 101]

/-- `METADATA`: the index of the metadata page. -/
abbrev metadataIndex : PageIndex := 0

/-- `frame_state`. -/
inductive FrameState
  | pinned
  | unpinned
  | pinnedDirty
  | unpinnedDirty
  deriving DecidableEq, Repr

/-- The frame is pinned, clean or dirty. -/
def FrameState.IsPinned (state : FrameState) : Prop :=
  state = .pinned ∨ state = .pinnedDirty

instance (state : FrameState) : Decidable state.IsPinned :=
  inferInstanceAs (Decidable (_ ∨ _))

theorem FrameState.IsPinned.ne_unpinned {state : FrameState}
    (h : state.IsPinned) : state ≠ .unpinned := by
  rcases h with rfl | rfl
  · decide
  · decide

theorem FrameState.IsPinned.ne_unpinnedDirty {state : FrameState}
    (h : state.IsPinned) : state ≠ .unpinnedDirty := by
  rcases h with rfl | rfl
  · decide
  · decide

theorem FrameState.not_isPinned_iff {state : FrameState} :
    ¬state.IsPinned ↔ state = .unpinned ∨ state = .unpinnedDirty := by
  cases state with
  | pinned => decide
  | unpinned => decide
  | pinnedDirty => decide
  | unpinnedDirty => decide

/-- `status`. -/
inductive Status
  | ok
  | err
  | noBacking
  | noFile
  | badFile
  | badOpen
  | badClose
  | badRemove
  | badRead
  | badWrite
  | badSeek
  | metaPage
  | noManager
  | noFreeFrames
  | pinErr
  | unpinErr
  | markErr
  | flushErr
  | noConfig
  deriving DecidableEq, Repr

/-- The integer a status code is, where the source stores one in a variable of
another type. -/
def Status.code : Status → Int64
  | .ok => 0
  | .err => 1
  | .noBacking => 2
  | .noFile => 3
  | .badFile => 4
  | .badOpen => 5
  | .badClose => 6
  | .badRemove => 7
  | .badRead => 8
  | .badWrite => 9
  | .badSeek => 10
  | .metaPage => 11
  | .noManager => 12
  | .noFreeFrames => 13
  | .pinErr => 14
  | .unpinErr => 15
  | .markErr => 16
  | .flushErr => 17
  | .noConfig => 18

end NickDB

import NickDB.Buffer.Session
import Mathlib.Data.ENat.Basic

/-!
# What clients see of a manager

A machine with a single frame, as an abstract model of the buffer manager.  It
counts how many pages the frame can still take, knows from which places on the
stack a page has been asked for, and whether the frame waits to be written back.
Its calls have no lists and no links.
-/

namespace NickDB

/-- The single frame. -/
structure OneFrame where
  store : Option Backing
  bytes : Page
  page : PageIndex
  state : FrameState
  /-- The frame waits to be written back. -/
  listed : Bool
  /-- How many pages the frame can still take. -/
  moves : ℕ∞
  /-- The places from which a page has been asked for. -/
  callers : List ℕ

namespace OneFrame

/-- A machine that can take one page less than the manager has frames. -/
def initial (store : Backing) (frames : ℕ) : OneFrame where
  store := some store
  bytes := blankPage
  page := 0
  state := .unpinned
  listed := false
  moves := (frames - 1 : ℕ)
  callers := []

/-! ## The calls -/

section Calls

variable {α : Type*} (name : α) (activation : ℕ) (one : OneFrame)
  (file : StoreFile)

/-- A page is read into the frame, from a place that is new. -/
def fetched (bytes : Page) : OneFrame :=
  { one with bytes := bytes, callers := activation :: one.callers }

/-- The frame takes a page. -/
def taking (index : PageIndex) : OneFrame :=
  { one with state := .pinned, page := index, moves := one.moves - 1 }

/-- The frame is released, and can take any number of pages from now on. -/
def released : OneFrame :=
  { one with state := .unpinned, moves := ⊤ }

/-- The frame is released with bytes that wait to be written.  It takes no
further pages, except if it was waiting already. -/
def waiting : OneFrame :=
  { one with
    state := .unpinnedDirty
    listed := true
    moves := if one.listed then ⊤ else 0 }

/-- Pinning a page.  A call from a place that has asked for a page before gets
the frame as it is; a machine that can take no more pages breaks down. -/
def pin (index : PageIndex) :
    Option (Status × Option α × OneFrame × StoreFile) :=
  if index = metadataIndex then some (.metaPage, none, one, file)
  else if activation ∈ one.callers then some (.ok, some name, one, file)
  else
    let (status, bytes, file) := getPage one.bytes one.store file index
    let one := one.fetched activation bytes
    if status ≠ .ok then some (status, none, one, file)
    else if one.moves = 0 then none
    else some (.ok, some name, one.taking index, file)

/-- Allocating a page and pinning it. -/
def alloc (wanted : Bool) :
    Option (Status × Option (α × PageIndex) × OneFrame × StoreFile) :=
  if wanted = false then some (.err, none, one, file)
  else
    let (status, page, file) := allocPage none one.store file
    if status ≠ .ok then some (status, none, one, file)
    else
      (one.pin name activation file page).map fun result =>
        (result.1, if result.1 = .ok then result.2.1.map fun f => (f, page)
          else none, result.2.2)

def unpin : Status × OneFrame :=
  match one.state with
  | .pinnedDirty => (.ok, one.waiting)
  | .pinned => (.ok, one.released)
  | _ => (.err, one)

def mark : Status × OneFrame :=
  match one.state with
  | .pinned => (.ok, { one with state := .pinnedDirty })
  | .pinnedDirty => (.ok, one)
  | _ => (.markErr, one)

/-- Freeing the page of the frame releases the frame in any state. -/
def free : Status × OneFrame × StoreFile :=
  let (status, file) := freePage one.store file one.page
  (status, one.released, file)

/-- Writing the frame back.  A machine that could take any number of pages does
not come to an end. -/
def flush : Option (OneFrame × StoreFile) :=
  if one.listed = false then some (one, file)
  else if one.moves = 0 then
    let (status, file) := putPage one.bytes one.store file one.page
    some ({ one with
      state := if status = .ok then .unpinned else one.state }, file)
  else none

end Calls

/-- The call of an event, where the frame has the name `name`. -/
def step {frames : ℕ} (name : Fin frames) (s : OneFrame × StoreFile)
    (event : BufferEvent frames) (t : OneFrame × StoreFile) : Prop :=
  match event with
  | .pin activation index status frame =>
      s.1.pin name activation s.2 index = some (status, frame, t)
  | .allocFrame activation wanted status pair =>
      s.1.alloc name activation s.2 wanted = some (status, pair, t)
  | .write frame bytes =>
      frame = name ∧ t = ({ s.1 with bytes := bytes }, s.2)
  | .mark frame status =>
      frame = name ∧ s.1.mark = (status, t.1) ∧ t.2 = s.2
  | .unpin frame status =>
      frame = name ∧ s.1.unpin = (status, t.1) ∧ t.2 = s.2
  | .freeFrame none status => status = .err ∧ t = s
  | .freeFrame (some frame) status =>
      frame = name ∧ s.1.free s.2 = (status, t)
  | .flushAll status => status = .ok ∧ s.1.flush s.2 = some t

/-- What a pin does: nothing, or it reads bytes into the frame, and goes on to
take the page if it can still take one. -/
theorem pin_cases {α : Type*} {name : α} {activation : ℕ} {one : OneFrame}
    {file : StoreFile} {index : PageIndex} {status : Status}
    {frame : Option α} {v : OneFrame × StoreFile}
    (hcall : one.pin name activation file index = some (status, frame, v)) :
    (∀ f ∈ frame, f = name) ∧ v.2.image = file.image ∧
      (v.1 = one ∨
        ∃ bytes, v.1 = one.fetched activation bytes ∨
          one.moves ≠ 0 ∧
            v.1 = (one.fetched activation bytes).taking index) := by
  have himage := getPage_image one.bytes one.store file index
  have hname : ∀ f ∈ some name, f = name := fun f hf =>
    (Option.some.inj hf).symm
  unfold pin at hcall
  rcases hget : getPage one.bytes one.store file index with
    ⟨read, bytes, file'⟩
  rw [hget] at himage
  simp only [hget] at hcall
  split at hcall
  next =>
    cases hcall
    exact ⟨by simp, rfl, Or.inl rfl⟩
  next =>
    split at hcall
    next =>
      cases hcall
      exact ⟨hname, rfl, Or.inl rfl⟩
    next =>
      split at hcall
      next =>
        cases hcall
        exact ⟨by simp, himage, Or.inr ⟨bytes, Or.inl rfl⟩⟩
      next =>
        split at hcall
        next => cases hcall
        next hmoves =>
          cases hcall
          exact ⟨hname, himage, Or.inr ⟨bytes, Or.inr ⟨hmoves, rfl⟩⟩⟩

end OneFrame

end NickDB

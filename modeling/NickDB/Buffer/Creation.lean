import NickDB.Buffer.Lists

/-!
# Creating a manager

`buff_create` hands `open_backing` a null pointer to store the descriptor
through, so no call of it comes to its end.  What it would set up over a store
that is open has all frames in its free list, in their order; only where there
are no frames the list is not empty, since its head is set before the loop.
-/

namespace NickDB

open BufferManager Linked

variable {n : ℕ} {store : Backing}

/-- The state that `buff_create` is to establish over an open store. -/
structure InitialState (store : Backing) (manager : NewManager n) : Prop where
  store : manager.store = some store
  frames : manager.frames = n
  unpinned : ∀ f, (manager.metaframes f).state = .unpinned
  freelist : ∃ head : Option (Fin n),
    manager.freelist = head.map Fin.val ∧
      Chain (fun f => (manager.metaframes f).nextFreeOrDirty) head
        (List.finRange n)
  writeback : manager.writeback = none
  lookupTable : manager.lookupTable = []

/-- A call of `buff_create` returns the initial state if the store can be
opened, and leaves `*manager` alone if it cannot. -/
def CreatesInitial (opens : List UInt8 → ℤ) (storename : List UInt8)
    (n : ℕ) : Prop :=
  (opens (storename ++ storeExt) ≠ -1 →
    ∃ manager : NewManager n,
      buffCreateNamed opens storename n = some (.ok, some manager) ∧
      InitialState ⟨opens (storename ++ storeExt)⟩ manager) ∧
  (opens (storename ++ storeExt) = -1 →
    buffCreateNamed opens storename n = some (.noBacking, none))

/-! ## The manager that would be set up -/

/-- The fields of a manager that is set up are those of a manager in use. -/
structure NewManager.Represents (new : NewManager n)
    (manager : BufferManager n) : Prop where
  store : new.store = manager.store
  frames : new.frames = n
  buffer : new.buffer = manager.buffer
  metaframes : new.metaframes = manager.metaframes
  freelist : new.freelist = manager.freelist.map Fin.val
  writeback : new.writeback = manager.writeback
  lookupTable : new.lookupTable = manager.lookupTable

/-- The loop leaves each meta frame unpinned and linked to the next one. -/
theorem metaframes_buffCreateOpened (store : Option Backing) (f : Fin n) :
    (buffCreateOpened store n).metaframes f =
      { state := .unpinned, index := 0, nextFreeOrDirty := element n (f + 1) } := by
  have hloop := foldl_update
    (fun (i : Fin n) metaframe =>
      if h : (i : ℕ) + 1 < n then
        { metaframe with
          nextFreeOrDirty := some ⟨i + 1, h⟩, state := .unpinned }
      else { metaframe with nextFreeOrDirty := none, state := .unpinned })
    (List.nodup_finRange n) (NewManager.zeroed n).metaframes
  have hframe := congrFun hloop f
  rw [if_pos (List.mem_finRange f)] at hframe
  refine hframe.trans ?_
  simp only [NewManager.zeroed, element]
  split <;> rfl

/-- Over an open store and with at least one frame, `buff_create` would set up
the manager that the developments above start from. -/
theorem buffCreateOpened_represents (store : Backing) (hframes : 0 < n) :
    (buffCreateOpened (some store) n).Represents
      (buffCreate store hframes) where
  store := rfl
  frames := rfl
  buffer := rfl
  metaframes := by
    funext f
    rw [metaframes_buffCreateOpened]
    simp only [buffCreate, element]
    split <;> rfl
  freelist := rfl
  writeback := rfl
  lookupTable := rfl

/-- A manager that is set up like one in use, all of whose frames are in the
free list in their order, is in the initial state. -/
theorem NewManager.Represents.initialState {new : NewManager n}
    {manager : BufferManager n} (h : new.Represents manager)
    (hstore : manager.store = some store)
    (hstate : ∀ f, manager.state f = .unpinned)
    (hchain : Chain manager.link manager.freelist (List.finRange n))
    (hwriteback : manager.writeback = none)
    (htable : manager.lookupTable = []) : InitialState store new where
  store := h.store.trans hstore
  frames := h.frames
  unpinned := by
    rw [h.metaframes]
    exact hstate
  freelist := by
    refine ⟨manager.freelist, h.freelist, ?_⟩
    rw [h.metaframes]
    exact hchain
  writeback := h.writeback.trans hwriteback
  lookupTable := h.lookupTable.trans htable

/-- Over an open store `buff_create` would establish the initial state exactly
if there is a frame. -/
theorem initialState_buffCreateOpened_iff (store : Backing) (n : ℕ) :
    InitialState store (buffCreateOpened (some store) n) ↔ 0 < n := by
  constructor
  · intro h
    obtain ⟨head, hfreelist, hchain⟩ := h.freelist
    cases head with
    | none => exact absurd hfreelist (Option.some_ne_none 0)
    | some f => exact Nat.zero_lt_of_lt f.isLt
  · intro hframes
    apply (buffCreateOpened_represents store hframes).initialState
    · rfl
    · exact state_buffCreate store hframes
    · exact chain_buffCreate store hframes
    · rfl
    · rfl

/-! ## The call -/

theorem openBacking_null (opens : List UInt8 → ℤ) (filename : List UInt8) :
    openBacking opens filename none = none := rfl

/-- Whatever `open` answers, the descriptor is stored through a null pointer. -/
theorem buffCreateNamed_eq_none (opens : List UInt8 → ℤ)
    (storename : List UInt8) (n : ℕ) :
    buffCreateNamed opens storename n = none := by
  simp only [buffCreateNamed, openBacking_null]

/-- `buff_create` never does what it is for: neither for a store that can be
opened nor for one that cannot. -/
theorem create_never_initial (opens : List UInt8 → ℤ)
    (storename : List UInt8) (n : ℕ) : ¬CreatesInitial opens storename n := by
  rintro ⟨hopened, hrefused⟩
  have hnone := buffCreateNamed_eq_none opens storename n
  by_cases hopen : opens (storename ++ storeExt) = -1
  · have hcall := hrefused hopen
    rw [hnone] at hcall
    cases hcall
  · obtain ⟨manager, hcall, -⟩ := hopened hopen
    rw [hnone] at hcall
    cases hcall

/-- Two frames over the store `a`, whose file can be opened. -/
theorem create_crashes :
    (fun _ : List UInt8 => (3 : ℤ)) ([97] ++ storeExt) ≠ -1 ∧
      buffCreateNamed (fun _ => 3) [97] 2 = none ∧
      ¬CreatesInitial (fun _ => 3) [97] 2 := by
  refine ⟨by decide, rfl, ?_⟩
  rintro ⟨hopened, -⟩
  obtain ⟨manager, hcall, -⟩ := hopened (by decide)
  exact absurd hcall (by simp [buffCreateNamed_eq_none])

end NickDB

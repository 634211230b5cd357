import NickDB.Buffer.Lists

/-!
# `buff_unpin` and the documented lists

The free list and the write-back list share one link field in one array, so a
push onto one of them must not disturb the other.  On a manager with the
documented lists it never does: the frame that is pushed is pinned, hence on
neither list, and no link but its own is written.

`buff_unpin` also gives the lookup table a pointer that `calloc` has just
returned.  Such a pointer is no key of the table, which `StackKeys` says; every
run from the initial manager keeps it.
-/

namespace NickDB

open Linked Runs BufferManager

variable {frames : ℕ}

/-- The frame `f` is unpinned and at the head of the free list, with the old
list behind it; the write-back list is the same. -/
structure UnpinnedClean (manager manager' : BufferManager frames)
    (f : Fin frames) : Prop where
  state : manager'.state f = .unpinned
  head : manager'.freelist = some f
  free : ∀ xs, Chain manager.link manager.freelist xs →
    Chain manager'.link manager'.freelist (f :: xs)
  writeback : manager'.writeback = manager.writeback
  dirty : ∀ xs, Chain manager.link manager.writeback xs →
    Chain manager'.link manager'.writeback xs

/-- The frame `f` is unpinned and dirty, and at the head of the write-back list,
with the old list behind it; the free list is the same. -/
structure UnpinnedDirty (manager manager' : BufferManager frames)
    (f : Fin frames) : Prop where
  state : manager'.state f = .unpinnedDirty
  head : manager'.writeback = some f
  dirty : ∀ xs, Chain manager.link manager.writeback xs →
    Chain manager'.link manager'.writeback (f :: xs)
  freelist : manager'.freelist = manager.freelist
  free : ∀ xs, Chain manager.link manager.freelist xs →
    Chain manager'.link manager'.freelist xs

/-- Only the frame `f` has changed, and not its page or its bytes. -/
structure OnlyListed (manager manager' : BufferManager frames)
    (f : Fin frames) : Prop where
  metaframes : ∀ g, g ≠ f → manager'.metaframes g = manager.metaframes g
  index : manager'.index f = manager.index f
  buffer : manager'.buffer = manager.buffer
  lookupTable : manager'.lookupTable = manager.lookupTable

variable {manager manager' : BufferManager frames}

/-! ## Pushing a pinned frame -/

theorem ListsSound.unpinnedClean (h : ListsSound manager) {f : Fin frames}
    (hf : (manager.state f).IsPinned) (table : LookupTable) :
    UnpinnedClean manager ((manager.pushFree f).setTable table) f := by
  obtain ⟨hfree, hdirty⟩ := h.not_reaches_of_pinned hf
  have hlink : (manager.pushFree f).link f = manager.freelist := by
    rw [link_pushFree, Function.update_self]
  have hsame : ∀ g, g ≠ f → (manager.pushFree f).link g = manager.link g := by
    intro g hg
    rw [link_pushFree, Function.update_of_ne hg]
  constructor
  · rw [state_setTable, state_pushFree, Function.update_self]
  · rfl
  · intro xs hxs
    have hchain := hxs.edit hfree hsame
    refine ⟨rfl, ?_⟩
    rw [link_setTable, hlink]
    exact hchain
  · rfl
  · intro xs hxs
    exact hxs.edit hdirty hsame

theorem ListsSound.unpinnedDirty (h : ListsSound manager) {f : Fin frames}
    (hf : (manager.state f).IsPinned) (table : LookupTable) :
    UnpinnedDirty manager ((manager.pushDirty f).setTable table) f := by
  obtain ⟨hfree, hdirty⟩ := h.not_reaches_of_pinned hf
  have hlink : (manager.pushDirty f).link f = manager.writeback := by
    rw [link_pushDirty, Function.update_self]
  have hsame : ∀ g, g ≠ f → (manager.pushDirty f).link g = manager.link g := by
    intro g hg
    rw [link_pushDirty, Function.update_of_ne hg]
  constructor
  · rw [state_setTable, state_pushDirty, Function.update_self]
  · rfl
  · intro xs hxs
    have hchain := hxs.edit hdirty hsame
    refine ⟨rfl, ?_⟩
    rw [link_setTable, hlink]
    exact hchain
  · rfl
  · intro xs hxs
    exact hxs.edit hfree hsame

/-- A call changes no other frame, no page and no bytes. -/
theorem UnpinOutcome.onlyListed (hkeys : StackKeys manager) {f : Fin frames}
    {status : Status} (hcall : UnpinOutcome manager f status manager') :
    OnlyListed manager manager' f := by
  cases hcall with
  | dirty removed hstate hremove =>
      have hmeta : ∀ g, g ≠ f → (manager.pushDirty f).metaframes g =
          manager.metaframes g := fun g hg => Function.update_of_ne hg ..
      exact ⟨hmeta, congrFun (index_pushDirty manager f) f, rfl,
        hkeys.removed hremove⟩
  | clean removed hstate hremove =>
      have hmeta : ∀ g, g ≠ f → (manager.pushFree f).metaframes g =
          manager.metaframes g := fun g hg => Function.update_of_ne hg ..
      exact ⟨hmeta, congrFun (index_pushFree manager f) f, rfl,
        hkeys.removed hremove⟩
  | refused hstate => exact ⟨fun _ _ => rfl, rfl, rfl, rfl⟩

/-! ## The call -/

/-- In every run from the initial manager, no pointer that `calloc` has just
returned is a key of the table. -/
theorem stackKeys_of_run {store : Backing} {hframes : 0 < frames}
    {file : StoreFile} {events : List (BufferEvent frames)}
    {t : World frames}
    (hrun : Run bufferStep (startWorld store hframes file) events t) :
    StackKeys t.manager := by
  apply hrun.invariant (I := fun s => StackKeys s.manager)
  · intro s event t h hcall
    exact h.step hcall
  · rfl

/-- On a manager with the documented lists `buff_unpin` moves a pinned frame to
the list of its new state, refuses every other frame, and keeps the lists as
documented. -/
theorem unpin_moves_frame (h : ListsDocumented manager)
    (hkeys : StackKeys manager) (f : Fin frames) :
    ∃ status manager', buffUnpin manager f = some (status, manager') ∧
      ListsDocumented manager' ∧ OnlyListed manager manager' f ∧
      (manager.state f = .pinned →
        status = .ok ∧ UnpinnedClean manager manager' f) ∧
      (manager.state f = .pinnedDirty →
        status = .ok ∧ UnpinnedDirty manager manager' f) ∧
      (¬(manager.state f).IsPinned → status = .err ∧ manager' = manager) := by
  have hsound : ListsSound manager := listsDocumented_iff.mp h
  obtain ⟨status, manager', hcall⟩ := hkeys.exists_unpin f
  have houtcome := unpinOutcome_of_buffUnpin hcall
  refine ⟨status, manager', hcall,
    listsDocumented_iff.mpr (hsound.unpin houtcome),
    houtcome.onlyListed hkeys, ?_⟩
  cases houtcome with
  | dirty removed hstate hremove =>
      refine ⟨fun hclean => ?_, fun _ => ⟨rfl, ?_⟩, fun hnot => ?_⟩
      · exact absurd (hstate.symm.trans hclean) (by decide)
      · exact hsound.unpinnedDirty (Or.inr hstate) removed.2
      · exact absurd (Or.inr hstate) hnot
  | clean removed hstate hremove =>
      refine ⟨fun _ => ⟨rfl, ?_⟩, fun hdirty => ?_, fun hnot => ?_⟩
      · exact hsound.unpinnedClean (Or.inl hstate) removed.2
      · exact absurd (hstate.symm.trans hdirty) (by decide)
      · exact absurd (Or.inl hstate) hnot
  | refused hstate =>
      refine ⟨fun hclean => ?_, fun hdirty => ?_, fun _ => ⟨rfl, rfl⟩⟩
      · exact absurd (Or.inl hclean) hstate
      · exact absurd (Or.inr hdirty) hstate

/-! ## A documented manager with a pinned frame -/

/-- Frame 0 is pinned with page 1, and frame 1 is free: what the first pin of a
session is to leave behind. -/
def heldManager : BufferManager 2 :=
  (smallWorld.manager.setFreelist (some (Fin.last 1))).claim
    ⟨0, Nat.two_pos⟩ (Int64.ofNat 1) none

theorem listsSound_heldManager : ListsSound heldManager where
  free := by
    refine ⟨[1], ⟨rfl, rfl⟩, by simp, ?_⟩
    decide
  dirty := by
    refine collects_none ?_
    decide

theorem unpin_moves_frame_zero :
    ∃ manager', buffUnpin heldManager 0 = some (.ok, manager') ∧
      Chain manager'.link manager'.freelist [0, 1] := by
  obtain ⟨status, manager', hcall, -, -, hclean, -⟩ := unpin_moves_frame
    (listsDocumented_iff.mpr listsSound_heldManager) rfl 0
  obtain ⟨rfl, hmoved⟩ := hclean rfl
  exact ⟨manager', hcall, hmoved.free [1] ⟨rfl, rfl⟩⟩

end NickDB

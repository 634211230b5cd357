import NickDB.Buffer.Unpin

/-!
# The housekeeping of a flush

After `buff_flush_all` a frame that was written should be free, and a frame
that was not should still be waiting.  The loop sets the state of a frame that
it has written and goes on; it moves no frame from one list to the other, and
the function returns `STATUS_OK` whatever its writes returned.  So a flush does
its housekeeping only when there is nothing to write.
-/

namespace NickDB

open Linked BufferManager

variable {frames : ℕ}

/-- What a flush that returns `status` has to leave behind. -/
structure FlushKeepsHouse (manager : BufferManager frames) (file : StoreFile)
    (status : Status) (manager' : BufferManager frames) : Prop where
  written : ∀ f, manager.state f = .unpinnedDirty →
    WritesBack manager file f →
    manager'.state f = .unpinned ∧
      (∃ xs, Chain manager'.link manager'.freelist xs ∧ xs.count f = 1) ∧
      ¬Reaches manager'.link manager'.writeback f ∧
      ∀ later, ¬WritesBack manager' later f
  failed : ∀ f, manager.state f = .unpinnedDirty →
    ¬WritesBack manager file f →
    manager'.state f = .unpinnedDirty ∧
      Reaches manager'.link manager'.writeback f
  lists : ListsDocumented manager'
  status_ok : status = .ok ↔
    ∀ f, manager.state f = .unpinnedDirty → WritesBack manager file f

/-- The flush returns, and has done its housekeeping. -/
def FlushServes (manager : BufferManager frames) (file : StoreFile) : Prop :=
  ∃ status manager' file', buffFlushAll manager file =
      some (status, manager', file') ∧
    FlushKeepsHouse manager file status manager'

variable {manager manager' : BufferManager frames} {file file' : StoreFile}

/-- On a manager with the documented lists a flush returns. -/
theorem ListsSound.exists_flush (h : ListsSound manager) (file : StoreFile) :
    ∃ manager' file',
      buffFlushAll manager file = some (.ok, manager', file') ∧
      writebackLoop manager file = some (manager', file') := by
  obtain ⟨xs, hchain, -⟩ := h.dirty
  have hloop : writebackLoop manager file =
      some ((writebackAfter manager file frames).manager,
        (writebackAfter manager file frames).file) :=
    (writebackLoop_eq_some_iff ..).mpr ⟨⟨xs, hchain⟩, rfl, rfl⟩
  refine ⟨_, _, ?_, hloop⟩
  rw [buffFlushAll, hloop]
  rfl

/-- A frame that waits to be written is still on the write-back list after a
flush, whether it was written or not. -/
theorem ListsSound.still_listed (h : ListsSound manager) {f : Fin frames}
    (hf : manager.state f = .unpinnedDirty)
    (hloop : writebackLoop manager file = some (manager', file')) :
    Reaches manager'.link manager'.writeback f := by
  have hsame := same_of_loop manager file hloop
  rw [hsame.link, hsame.writeback]
  exact h.dirty.mem_iff_reaches.mp hf

/-- With nothing to write the flush changes nothing. -/
theorem ListsSound.writeback_eq_none (h : ListsSound manager)
    (hnone : ∀ f, manager.state f ≠ .unpinnedDirty) :
    manager.writeback = none := by
  by_contra hhead
  obtain ⟨f, hf⟩ := Option.ne_none_iff_exists'.mp hhead
  have hreaches : Reaches manager.link manager.writeback f := ⟨[], hf⟩
  exact hnone f (h.dirty.mem_iff_reaches.mpr hreaches)

/-- On a manager with the documented lists, a flush does its housekeeping
exactly when no frame is unpinned and dirty. -/
theorem flush_serves_iff (h : ListsDocumented manager) (file : StoreFile) :
    FlushServes manager file ↔ ∀ f, manager.state f ≠ .unpinnedDirty := by
  have hsound : ListsSound manager := listsDocumented_iff.mp h
  constructor
  · rintro ⟨status, manager', file', hcall, hkept⟩ f hf
    obtain ⟨rfl, hloop⟩ := flushAll_eq_some hcall
    -- the call says that all writes succeeded, so this frame was written
    have hwrites : WritesBack manager file f := hkept.status_ok.mp rfl f hf
    obtain ⟨-, -, hgone, -⟩ := hkept.written f hf hwrites
    exact hgone (hsound.still_listed hf hloop)
  · intro hnone
    have hempty := hsound.writeback_eq_none hnone
    refine ⟨.ok, manager, file, buffFlushAll_of_empty file hempty, ?_⟩
    constructor
    · intro f hf
      exact absurd hf (hnone f)
    · intro f hf
      exact absurd hf (hnone f)
    · exact h
    · exact iff_of_true rfl fun f hf => absurd hf (hnone f)

/-! ## Small sessions -/

/-- Frame 0 is unpinned and dirty with page 1, and frame 1 is free. -/
def waitingManager : BufferManager 2 :=
  (heldManager.setState ⟨0, Nat.two_pos⟩ .pinnedDirty).pushDirty
    ⟨0, Nat.two_pos⟩

theorem listsSound_waitingManager : ListsSound waitingManager := by
  have hdirty : ListsSound (heldManager.setState 0 .pinnedDirty) :=
    listsSound_heldManager.setState (Or.inl rfl) (Or.inr rfl)
  apply hdirty.pushDirty
  decide

/-- Frame 0 is written, and still on the write-back list: the next flush writes
it again. -/
theorem flush_keeps_written :
    ∃ manager' file', ListsDocumented waitingManager ∧
      buffFlushAll waitingManager (reliable (blankStore 2)) =
        some (.ok, manager', file') ∧
      manager'.state 0 = .unpinned ∧
      Reaches manager'.link manager'.writeback 0 ∧
      ¬FlushServes waitingManager (reliable (blankStore 2)) := by
  have hsound := listsSound_waitingManager
  have hstate : waitingManager.state 0 = .unpinnedDirty := rfl
  obtain ⟨manager', file', hcall, hloop⟩ :=
    hsound.exists_flush (reliable (blankStore 2))
  refine ⟨manager', file', listsDocumented_iff.mpr hsound, hcall, ?_,
    hsound.still_listed hstate hloop, ?_⟩
  · rcases state_of_loop _ _ hloop 0 with ⟨-, hwritten⟩ | ⟨hnot, -⟩
    · exact hwritten
    · refine absurd ⟨0, rfl, ?_⟩ hnot
      have hput := ((storeAt_blankStore (n := 2) (by decide)).put_page ⟨3⟩
        (Nat.le_refl 1) (by decide) (by simp) (waitingManager.buffer 0)).1
      exact congrArg Prod.fst hput
  · rw [flush_serves_iff (listsDocumented_iff.mpr hsound)]
    intro hnone
    exact hnone 0 hstate

/-- With a free and a pinned frame there is nothing to write. -/
theorem flush_serves_held :
    FlushServes heldManager (reliable (blankStore 2)) := by
  rw [flush_serves_iff (listsDocumented_iff.mpr listsSound_heldManager)]
  decide

end NickDB

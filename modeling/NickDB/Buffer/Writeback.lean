import NickDB.Buffer.Calls

/-!
# The write-back loop

`buff_flush_all` and `buff_destroy` walk the write-back list and write each
frame to its page.  A turn of the loop changes the state of at most one frame,
and neither links nor pages, so the loop visits the frames that the links lead
to before it starts.  It ends exactly when these frames form a chain.
-/

namespace NickDB

open Linked BufferManager

variable {frames : ℕ}

/-- The `put_page` of a turn at the frame `f`. -/
def Cursor.put (cursor : Cursor frames) (f : Fin frames) :
    Status × StoreFile :=
  putPage (cursor.manager.buffer f) cursor.manager.store cursor.file
    (cursor.manager.index f)

theorem Cursor.next_of_none {cursor : Cursor frames}
    (h : cursor.metaframe = none) : cursor.next = cursor := by
  unfold Cursor.next
  rw [h]

theorem Cursor.next_of_some {cursor : Cursor frames} {f : Fin frames}
    (h : cursor.metaframe = some f) :
    cursor.next =
      { metaframe := cursor.manager.link f
        manager := if (cursor.put f).1 = .ok
          then cursor.manager.setState f .unpinned else cursor.manager
        file := (cursor.put f).2 } := by
  obtain ⟨⟨status, file⟩, hput⟩ : ∃ result, cursor.put f = result := ⟨_, rfl⟩
  have hcall : putPage (cursor.manager.buffer f) cursor.manager.store
      cursor.file (cursor.manager.metaframes f).index = (status, file) := hput
  unfold Cursor.next
  simp only [h, hput, hcall]
  by_cases hstatus : status = .ok
  · have hlink := congrFun (link_setState cursor.manager f .unpinned) f
    simp only [if_pos hstatus]
    rw [← hlink]
    rfl
  · simp only [if_neg hstatus]
    rfl

/-! ## What a turn leaves alone -/

/-- The two managers agree on everything the loop does not write. -/
structure SameButState (manager manager' : BufferManager frames) : Prop where
  store : manager'.store = manager.store
  buffer : manager'.buffer = manager.buffer
  index : manager'.index = manager.index
  link : manager'.link = manager.link
  freelist : manager'.freelist = manager.freelist
  writeback : manager'.writeback = manager.writeback
  lookupTable : manager'.lookupTable = manager.lookupTable

theorem SameButState.refl (manager : BufferManager frames) :
    SameButState manager manager :=
  ⟨rfl, rfl, rfl, rfl, rfl, rfl, rfl⟩

theorem sameButState_setState (manager : BufferManager frames)
    (f : Fin frames) (st : FrameState) :
    SameButState manager (manager.setState f st) :=
  ⟨rfl, rfl, index_setState manager f st, link_setState manager f st, rfl,
    rfl, rfl⟩

theorem SameButState.trans {first second third : BufferManager frames}
    (h : SameButState first second) (h' : SameButState second third) :
    SameButState first third where
  store := h'.store.trans h.store
  buffer := h'.buffer.trans h.buffer
  index := h'.index.trans h.index
  link := h'.link.trans h.link
  freelist := h'.freelist.trans h.freelist
  writeback := h'.writeback.trans h.writeback
  lookupTable := h'.lookupTable.trans h.lookupTable

theorem Cursor.next_same (cursor : Cursor frames) :
    SameButState cursor.manager cursor.next.manager := by
  cases h : cursor.metaframe with
  | none =>
      rw [Cursor.next_of_none h]
      exact SameButState.refl _
  | some f =>
      rw [Cursor.next_of_some h]
      simp only []
      split
      · exact sameButState_setState _ f .unpinned
      · exact SameButState.refl _

/-! ## The loop -/

/-- A turn of the loop writes the frame `f` to its page. -/
def WritesBack (manager : BufferManager frames) (file : StoreFile)
    (f : Fin frames) : Prop :=
  ∃ n, (writebackAfter manager file n).metaframe = some f ∧
    ((writebackAfter manager file n).put f).1 = .ok

section Loop

variable (manager : BufferManager frames) (file : StoreFile)

theorem writebackAfter_zero : writebackAfter manager file 0 =
    ⟨manager.writeback, manager, file⟩ := rfl

theorem writebackAfter_succ (n : ℕ) : writebackAfter manager file (n + 1) =
    (writebackAfter manager file n).next :=
  Function.iterate_succ_apply' _ _ _

theorem writebackAfter_same (n : ℕ) :
    SameButState manager (writebackAfter manager file n).manager := by
  induction n with
  | zero => exact SameButState.refl manager
  | succ n ih =>
      rw [writebackAfter_succ]
      exact ih.trans (Cursor.next_same _)

/-- The loop follows the links as they stand before it starts. -/
theorem metaframe_writebackAfter (n : ℕ) :
    (writebackAfter manager file n).metaframe =
      walk manager.link manager.writeback n := by
  induction n with
  | zero => rfl
  | succ n ih =>
      rw [writebackAfter_succ, walk_succ, ← ih]
      cases h : (writebackAfter manager file n).metaframe with
      | none => rw [Cursor.next_of_none h, h, Option.bind_none]
      | some f =>
          rw [Cursor.next_of_some h, (writebackAfter_same manager file n).link]
          rfl

/-- A loop along a chain is over after as many turns as there are frames. -/
theorem metaframe_writebackAfter_frames {xs : List (Fin frames)}
    (hchain : Chain manager.link manager.writeback xs) :
    (writebackAfter manager file frames).metaframe = none := by
  have hlen := hchain.nodup.length_le_card
  rw [Fintype.card_fin] at hlen
  rw [metaframe_writebackAfter]
  exact hchain.walk_eq_none hlen

/-- The loop ends exactly when the write-back list is a chain. -/
theorem writebackLoop_eq_some_iff {manager' : BufferManager frames}
    {file' : StoreFile} :
    writebackLoop manager file = some (manager', file') ↔
      (∃ xs, Chain manager.link manager.writeback xs) ∧
        (writebackAfter manager file frames).manager = manager' ∧
        (writebackAfter manager file frames).file = file' := by
  have hend : (writebackAfter manager file frames).metaframe = none ↔
      ∃ xs, Chain manager.link manager.writeback xs := by
    constructor
    · intro h
      rw [metaframe_writebackAfter] at h
      obtain ⟨xs, hxs, -⟩ := exists_chain_of_walk_eq_none h
      exact ⟨xs, hxs⟩
    · rintro ⟨xs, hxs⟩
      exact metaframe_writebackAfter_frames manager file hxs
  rw [← hend]
  unfold writebackLoop
  by_cases h : (writebackAfter manager file frames).metaframe = none
  · simp [h]
  · simp [h]

/-- After its end the loop stands still. -/
theorem writebackAfter_of_le {n m : ℕ} (hnm : n ≤ m)
    (h : (writebackAfter manager file n).metaframe = none) :
    writebackAfter manager file m = writebackAfter manager file n := by
  induction m, hnm using Nat.le_induction with
  | base => rfl
  | succ m _ ih =>
      rw [writebackAfter_succ, ih, Cursor.next_of_none h]

/-- A frame that no turn writes keeps its state. -/
theorem state_writebackAfter_of_not {f : Fin frames}
    (h : ¬WritesBack manager file f) (n : ℕ) :
    (writebackAfter manager file n).manager.state f = manager.state f := by
  induction n with
  | zero => rfl
  | succ n ih =>
      rw [writebackAfter_succ]
      cases hmeta : (writebackAfter manager file n).metaframe with
      | none => rwa [Cursor.next_of_none hmeta]
      | some g =>
          rw [Cursor.next_of_some hmeta]
          simp only []
          split
          next hput =>
            have hfg : f ≠ g := by
              rintro rfl
              exact h ⟨n, hmeta, hput⟩
            rwa [state_setState, Function.update_of_ne hfg]
          next => exact ih

/-- A frame that was written stays unpinned to the end of the loop. -/
theorem state_writebackAfter_of_put {n m : ℕ} {f : Fin frames}
    (hmeta : (writebackAfter manager file n).metaframe = some f)
    (hput : ((writebackAfter manager file n).put f).1 = .ok) (hnm : n < m) :
    (writebackAfter manager file m).manager.state f = .unpinned := by
  induction m, hnm using Nat.le_induction with
  | base =>
      rw [writebackAfter_succ, Cursor.next_of_some hmeta]
      simp only [if_pos hput, state_setState, Function.update_self]
  | succ m _ ih =>
      rw [writebackAfter_succ]
      cases h : (writebackAfter manager file m).metaframe with
      | none => rwa [Cursor.next_of_none h]
      | some g =>
          rw [Cursor.next_of_some h]
          simp only []
          split
          · rw [state_setState]
            by_cases hfg : f = g
            · rw [hfg, Function.update_self]
            · rwa [Function.update_of_ne hfg]
          · exact ih

/-- The states after a loop that ends. -/
theorem state_of_loop {manager' : BufferManager frames} {file' : StoreFile}
    (hloop : writebackLoop manager file = some (manager', file'))
    (f : Fin frames) :
    (WritesBack manager file f ∧ manager'.state f = .unpinned) ∨
      (¬WritesBack manager file f ∧ manager'.state f = manager.state f) := by
  obtain ⟨⟨xs, hchain⟩, rfl, -⟩ := (writebackLoop_eq_some_iff ..).mp hloop
  have hend := metaframe_writebackAfter_frames manager file hchain
  by_cases hwrites : WritesBack manager file f
  · obtain ⟨n, hmeta, hput⟩ := hwrites
    have hn : n < frames := by
      by_contra hge
      rw [writebackAfter_of_le manager file (not_lt.mp hge) hend, hend] at hmeta
      cases hmeta
    exact Or.inl ⟨⟨n, hmeta, hput⟩,
      state_writebackAfter_of_put manager file hmeta hput hn⟩
  · exact Or.inr ⟨hwrites,
      state_writebackAfter_of_not manager file hwrites frames⟩

theorem same_of_loop {manager' : BufferManager frames} {file' : StoreFile}
    (hloop : writebackLoop manager file = some (manager', file')) :
    SameButState manager manager' := by
  obtain ⟨-, rfl, -⟩ := (writebackLoop_eq_some_iff ..).mp hloop
  exact writebackAfter_same manager file frames

/-- The loop only writes frames on the write-back list. -/
theorem WritesBack.reaches {manager : BufferManager frames}
    {file : StoreFile} {f : Fin frames} (h : WritesBack manager file f) :
    Reaches manager.link manager.writeback f := by
  obtain ⟨n, hmeta, -⟩ := h
  rw [metaframe_writebackAfter] at hmeta
  exact reaches_of_walk hmeta

end Loop

end NickDB

import NickDB.Buffer.Session

/-!
# The first frame

`buff_pin` takes the frame at the head of the free list and leaves it there,
and a frame that is unpinned goes back to the head.  So as long as no other
frame is freed, every pin returns the same frame, and the other frames are
never used.  Once this frame has been put on the write-back list it has no
link, and taking it once more would follow a null pointer.
-/

namespace NickDB

open Linked BufferManager

variable {frames : ℕ}

/-- Every pin returns the frame `head`, which is pinned only as long as it is
not on the write-back list. -/
structure HeadOnly (head : Fin frames) (manager : BufferManager frames) :
    Prop where
  freelist : manager.freelist = some head
  others : ∀ f, f ≠ head → ¬(manager.state f).IsPinned
  writeback : manager.writeback = none ∨
    (manager.writeback = some head ∧ manager.link head = none ∧
      ¬(manager.state head).IsPinned)

variable {head : Fin frames} {manager manager' : BufferManager frames}
  {file file' : StoreFile}

theorem HeadOnly.eq_head (h : HeadOnly head manager) {f : Fin frames}
    (hf : (manager.state f).IsPinned) : f = head := by
  by_contra hne
  exact h.others f hne hf

theorem HeadOnly.writeback_of_pinned (h : HeadOnly head manager)
    (hpinned : (manager.state head).IsPinned) : manager.writeback = none := by
  rcases h.writeback with hnone | ⟨-, -, hnot⟩
  · exact hnone
  · exact absurd hpinned hnot

theorem HeadOnly.writeback_of_link (h : HeadOnly head manager)
    {next : Fin frames} (hlink : manager.link head = some next) :
    manager.writeback = none := by
  rcases h.writeback with hnone | ⟨-, hnull, -⟩
  · exact hnone
  · rw [hlink] at hnull
    cases hnull

/-- The initial manager. -/
theorem headOnly_buffCreate (store : Backing) (hframes : 0 < frames) :
    HeadOnly ⟨0, hframes⟩ (buffCreate store hframes) where
  freelist := rfl
  others := by
    intro f _
    rw [state_buffCreate]
    decide
  writeback := Or.inl rfl

/-! ## One lemma for each call -/

/-- The lists, the links and the states are all that counts. -/
theorem HeadOnly.congr (h : HeadOnly head manager)
    (hfree : manager'.freelist = manager.freelist)
    (hdirty : manager'.writeback = manager.writeback)
    (hlink : manager'.link = manager.link)
    (hstate : ∀ f, (manager'.state f).IsPinned → (manager.state f).IsPinned) :
    HeadOnly head manager' where
  freelist := hfree.trans h.freelist
  others := fun f hf hpinned => h.others f hf (hstate f hpinned)
  writeback := by
    rw [hdirty, hlink]
    exact h.writeback.imp_right fun ⟨hhead, hnull, hnot⟩ =>
      ⟨hhead, hnull, fun hpinned => hnot (hstate head hpinned)⟩

/-- What a pin does: it leaves the meta frames alone, or it takes `head` while
nothing is on the write-back list. -/
theorem HeadOnly.pin (h : HeadOnly head manager) {activation : ℕ}
    {index : PageIndex} {status : Status} {frame : Option (Fin frames)}
    (hcall : PinOutcome activation manager file index status frame manager'
      file') : HeadOnly head manager' := by
  cases hcall with
  | metaPage hindex => exact h
  | noFreeFrames hindex hfree => exact h
  | hit hindex hfree hknown => exact h
  | unread hindex hfree hnew hget hstatus =>
      exact h.congr rfl rfl rfl fun _ hpinned => hpinned
  | @taken f next page file' hindex hfree hnew hget hnext =>
      obtain rfl := Option.some.inj (h.freelist.symm.trans hfree)
      refine ⟨h.freelist, ?_, Or.inl (h.writeback_of_link hnext)⟩
      intro g hg
      rw [state_claim, Function.update_of_ne hg]
      exact h.others g hg

theorem HeadOnly.alloc (h : HeadOnly head manager) {activation : ℕ}
    {pageFrame : Bool} {status : Status}
    {pair : Option (Fin frames × PageIndex)}
    (hcall : AllocOutcome activation manager file pageFrame status pair
      manager' file') : HeadOnly head manager' :=
  hcall.keeps h h.pin

/-- A frame that is not on the write-back list goes to the free list. -/
theorem HeadOnly.pushFree (h : HeadOnly head manager)
    (hclean : manager.writeback = none) :
    HeadOnly head (manager.pushFree head) where
  freelist := rfl
  others := by
    intro g hg
    rw [state_pushFree, Function.update_of_ne hg]
    exact h.others g hg
  writeback := Or.inl hclean

theorem HeadOnly.pushDirty (h : HeadOnly head manager)
    (hclean : manager.writeback = none) :
    HeadOnly head (manager.pushDirty head) where
  freelist := h.freelist
  others := by
    intro g hg
    rw [state_pushDirty, Function.update_of_ne hg]
    exact h.others g hg
  writeback := by
    refine Or.inr ⟨rfl, ?_, ?_⟩
    · rw [link_pushDirty, Function.update_self, hclean]
    · rw [state_pushDirty, Function.update_self]
      decide

theorem HeadOnly.unpin (h : HeadOnly head manager) {f : Fin frames}
    {status : Status} (hcall : UnpinOutcome manager f status manager') :
    HeadOnly head manager' := by
  cases hcall with
  | dirty removed hstate hremove =>
      obtain rfl := h.eq_head (Or.inr hstate)
      have hclean := h.writeback_of_pinned (Or.inr hstate)
      exact (h.pushDirty hclean).congr rfl rfl rfl fun _ hpinned => hpinned
  | clean removed hstate hremove =>
      obtain rfl := h.eq_head (Or.inl hstate)
      have hclean := h.writeback_of_pinned (Or.inl hstate)
      exact (h.pushFree hclean).congr rfl rfl rfl fun _ hpinned => hpinned
  | refused hstate => exact h

theorem HeadOnly.mark (h : HeadOnly head manager) {f : Fin frames}
    {status : Status} (hcall : MarkOutcome manager f status manager') :
    HeadOnly head manager' := by
  cases hcall with
  | clean hstate =>
      refine h.congr rfl rfl (link_setState ..) fun g hpinned => ?_
      by_cases hgf : g = f
      · rw [hgf]
        exact Or.inl hstate
      · rwa [state_setState, Function.update_of_ne hgf] at hpinned
  | dirty hstate => exact h
  | refused hstate => exact h

/-! ## The write-back loop -/

/-- The loop has at most one turn. -/
theorem HeadOnly.turn (h : HeadOnly head manager) {n : ℕ} {f : Fin frames}
    (hmeta : (writebackAfter manager file n).metaframe = some f) :
    n = 0 ∧ f = head ∧ manager.writeback = some head := by
  rw [metaframe_writebackAfter] at hmeta
  rcases h.writeback with hnone | ⟨hhead, hnull, -⟩
  · rw [hnone, walk_none] at hmeta
    cases hmeta
  · cases n with
    | zero =>
        exact ⟨rfl, Option.some.inj (hmeta.symm.trans hhead), hhead⟩
    | succ n =>
        rw [walk_succ', hhead, Option.bind_some, hnull, walk_none] at hmeta
        cases hmeta

theorem HeadOnly.writes_iff (h : HeadOnly head manager)
    {P : Cursor frames → Fin frames → Prop} :
    (∀ n f, (writebackAfter manager file n).metaframe = some f →
        P (writebackAfter manager file n) f) ↔
      (manager.writeback = some head →
        P ⟨some head, manager, file⟩ head) := by
  constructor
  · intro hall hhead
    have hturn := hall 0 head hhead
    rwa [writebackAfter_zero, hhead] at hturn
  · intro hhead n f hmeta
    obtain ⟨rfl, rfl, hwriteback⟩ := h.turn hmeta
    have hturn := hhead hwriteback
    rwa [writebackAfter_zero, hwriteback]

/-- The loop writes the frame `head`, or nothing at all. -/
theorem HeadOnly.loop (h : HeadOnly head manager)
    (hloop : writebackLoop manager file = some (manager', file')) :
    (manager.writeback = none ∧ manager' = manager ∧ file' = file) ∨
      (manager.writeback = some head ∧
        file' = (putPage (manager.buffer head) manager.store file
          (manager.index head)).2) := by
  obtain ⟨-, rfl, rfl⟩ := (writebackLoop_eq_some_iff ..).mp hloop
  rcases h.writeback with hnone | ⟨hhead, hnull, -⟩
  · have hend : (writebackAfter manager file 0).metaframe = none := hnone
    rw [writebackAfter_of_le manager file (Nat.zero_le frames) hend]
    exact Or.inl ⟨hnone, rfl, rfl⟩
  · have hturn : (writebackAfter manager file 0).metaframe = some head := hhead
    have hend : (writebackAfter manager file 1).metaframe = none := by
      rw [metaframe_writebackAfter, walk_succ', hhead]
      exact hnull
    have hframes : 1 ≤ frames := Nat.one_le_of_lt head.isLt
    rw [writebackAfter_of_le manager file hframes hend, writebackAfter_succ,
      Cursor.next_of_some hturn]
    exact Or.inr ⟨hhead, rfl⟩

theorem HeadOnly.flush (h : HeadOnly head manager)
    (hloop : writebackLoop manager file = some (manager', file')) :
    HeadOnly head manager' := by
  have hsame := same_of_loop manager file hloop
  refine h.congr hsame.freelist hsame.writeback hsame.link fun f hpinned => ?_
  rcases state_of_loop manager file hloop f with ⟨-, hstate⟩ | ⟨-, hstate⟩
  · exact absurd hstate hpinned.ne_unpinned
  · rwa [hstate] at hpinned

/-- The loop always ends. -/
theorem HeadOnly.exists_flush (h : HeadOnly head manager)
    (file : StoreFile) : ∃ manager' file',
      buffFlushAll manager file = some (.ok, manager', file') := by
  have hchain : ∃ xs, Chain manager.link manager.writeback xs := by
    rcases h.writeback with hnone | ⟨hhead, hnull, -⟩
    · exact ⟨[], hnone⟩
    · exact ⟨[head], hhead, hnull⟩
  have hloop : writebackLoop manager file =
      some ((writebackAfter manager file frames).manager,
        (writebackAfter manager file frames).file) :=
    (writebackLoop_eq_some_iff manager file).mpr ⟨hchain, rfl, rfl⟩
  refine ⟨(writebackAfter manager file frames).manager,
    (writebackAfter manager file frames).file, ?_⟩
  rw [buffFlushAll, hloop]
  rfl

/-- In the small sessions frame 0 is the first one. -/
theorem headOnly_dirtyWorld {k : ℕ} (hpos : 1 ≤ k) (hk : k ≤ 2)
    (page : Page) : HeadOnly 0 (dirtyWorld k page).manager := by
  have hstart : HeadOnly 0 smallWorld.manager := headOnly_buffCreate _ _
  have hpinned : HeadOnly 0 (pinnedWorld k).manager :=
    hstart.pin (smallWorld_pinOutcome hpos hk)
  have hwritten : HeadOnly 0 (writtenWorld k page).manager :=
    hpinned.congr rfl rfl rfl fun _ h => h
  exact hwritten.mark (markOutcome_of_buffMarkPage (writtenWorld_mark k page).1)

end NickDB

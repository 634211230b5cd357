import NickDB.Buffer.Session

/-!
# Looking up resident pages

The lookup table is to lead from the page of every pinned frame to that frame,
and to miss all other pages.  It cannot: its keys are addresses of a local
variable of `buff_pin`, so a key that is in the table is found for every page
that is asked for from its place on the stack, and never from another one, and
a hit returns the first free frame.  This module shows that the table is right
only as long as it is empty and no frame is pinned.
-/

namespace NickDB

open Runs BufferManager

variable {frames : ℕ}

/-- The table leads from the pages of the pinned frames to these frames, and
misses every other page, from whatever place on the stack it is asked. -/
structure FindsResident (manager : BufferManager frames) : Prop where
  finds : ∀ f, (manager.state f).IsPinned → ∀ activation file,
    ∃ manager' file', buffPin activation manager file (manager.index f) =
        some (.ok, some f, manager', file') ∧
      manager'.freelist = manager.freelist ∧
      manager'.buffer = manager.buffer ∧ manager'.index = manager.index
  misses : ∀ index, index ≠ metadataIndex →
    (∀ f, (manager.state f).IsPinned → manager.index f ≠ index) →
    ∀ activation, ¬manager.Knows activation

/-- The call of `buff_pin` enters its key into the table. -/
def EntersKey (activation : ℕ) (manager : BufferManager frames)
    (index : PageIndex) : Prop :=
  index ≠ metadataIndex ∧ manager.freelist ≠ none ∧
    ¬manager.Knows activation

/-- No key is entered. -/
def EntersNoKey (s : World frames) : BufferEvent frames → Prop
  | .pin activation index _ _ => ¬EntersKey activation s.manager index
  | .allocFrame activation pageFrame _ _ => pageFrame = true →
      ∀ page file, allocPage none s.manager.store s.file = (.ok, page, file) →
        ¬EntersKey activation s.manager page
  | _ => True

/-- The table holds no key of `buff_pin`, and no frame is pinned. -/
structure NothingPinned (manager : BufferManager frames) : Prop where
  keys : ∀ activation, ¬manager.Knows activation
  states : ∀ f, ¬(manager.state f).IsPinned

variable {manager manager' : BufferManager frames} {file file' : StoreFile}

/-! ## What a right table is -/

/-- From some place on the stack no call has been made yet. -/
theorem exists_not_knows (manager : BufferManager frames) :
    ∃ activation, ¬manager.Knows activation := by
  suffices hbound : ∀ table : LookupTable, ∃ n, ∀ activation, n ≤ activation →
      tableLookup table (.pageidxptr activation) = none by
    obtain ⟨n, hn⟩ := hbound manager.lookupTable
    refine ⟨n, ?_⟩
    simp [Knows, hn n (Nat.le_refl n)]
  intro table
  induction table with
  | nil => exact ⟨0, fun _ _ => rfl⟩
  | cons entry table ih =>
      obtain ⟨n, hn⟩ := ih
      obtain ⟨key, value⟩ := entry
      cases key with
      | pageidxptr b =>
          refine ⟨max n (b + 1), fun activation hle => ?_⟩
          have hne : (TablePointer.pageidxptr activation == .pageidxptr b) =
              false := by
            simp only [beq_eq_false_iff_ne, ne_eq, TablePointer.pageidxptr.injEq]
            omega
          rw [tableLookup, List.lookup_cons, hne]
          exact hn activation (by omega)
      | frameidxptr b =>
          refine ⟨n, fun activation hle => ?_⟩
          have hne : (TablePointer.pageidxptr activation == .frameidxptr b) =
              false := rfl
          rw [tableLookup, List.lookup_cons, hne]
          exact hn activation hle
      | heap =>
          refine ⟨n, fun activation hle => ?_⟩
          have hne : (TablePointer.pageidxptr activation == .heap) =
              false := rfl
          rw [tableLookup, List.lookup_cons, hne]
          exact hn activation hle

/-- A read whose transfer fails does not succeed. -/
theorem getPage_failed (dest : Page) (store : Option Backing)
    (image : ByteFile UInt8) (index : PageIndex) :
    (getPage dest store ⟨image, [.failed]⟩ index).1 ≠ .ok := by
  simp only [getPage, pread]
  split_ifs <;> simp_all [StoreFile.nextTransfer, Transfer.count, pageSize]

/-- A pinned frame is not found from a place on the stack that has not been
used: the page would be read again, and the read may fail. -/
theorem FindsResident.not_isPinned (h : FindsResident manager)
    (f : Fin frames) : ¬(manager.state f).IsPinned := by
  intro hpinned
  obtain ⟨activation, hnew⟩ := exists_not_knows manager
  obtain ⟨manager', file', hcall, -⟩ := h.finds f hpinned activation
    ⟨ByteFile.empty, [.failed]⟩
  cases buffPin_eq_some_iff.mp hcall with
  | hit hindex hfree hknown => exact hnew hknown
  | taken hindex hfree hnew hget hnext =>
      apply getPage_failed _ _ ByteFile.empty
      exact congrArg Prod.fst hget

/-- The table is right exactly when it is empty and no frame is pinned. -/
theorem findsResident_iff :
    FindsResident manager ↔ NothingPinned manager := by
  constructor
  · intro h
    refine ⟨h.misses 1 (by decide) fun f hf => ?_, h.not_isPinned⟩
    exact absurd hf (h.not_isPinned f)
  · intro h
    exact ⟨fun f hf => absurd hf (h.states f), fun _ _ _ => h.keys⟩

/-! ## One lemma for each call -/

theorem NothingPinned.pin_iff (h : NothingPinned manager) {activation : ℕ}
    {index : PageIndex} {status : Status} {frame : Option (Fin frames)}
    (hcall : PinOutcome activation manager file index status frame manager'
      file') :
    NothingPinned manager' ↔ ¬EntersKey activation manager index := by
  cases hcall with
  | metaPage hindex => exact iff_of_true h fun henters => henters.1 hindex
  | noFreeFrames hindex hfree =>
      exact iff_of_true h fun henters => henters.2.1 hfree
  | hit hindex hfree hknown => exact absurd hknown (h.keys activation)
  | unread hindex hfree hnew hget hstatus =>
      refine iff_of_false ?_ (not_not.mpr ⟨hindex, by simp [hfree], hnew⟩)
      intro h'
      exact h'.keys activation (knows_learn manager activation)
  | taken hindex hfree hnew hget hnext =>
      refine iff_of_false ?_ (not_not.mpr ⟨hindex, by simp [hfree], hnew⟩)
      intro h'
      exact h'.keys activation (knows_learn manager activation)

theorem NothingPinned.alloc_iff (h : NothingPinned manager) {activation : ℕ}
    {pageFrame : Bool} {status : Status}
    {pair : Option (Fin frames × PageIndex)}
    (hcall : AllocOutcome activation manager file pageFrame status pair
      manager' file') :
    NothingPinned manager' ↔ (pageFrame = true → ∀ page file₁,
      allocPage none manager.store file = (.ok, page, file₁) →
        ¬EntersKey activation manager page) :=
  hcall.keeps_iff h h.pin_iff

/-- Lookup keys and pinned frames are all that counts. -/
theorem NothingPinned.congr (h : NothingPinned manager)
    (htable : manager'.lookupTable = manager.lookupTable)
    (hstate : ∀ f, manager'.state f = manager.state f ∨
      ¬(manager'.state f).IsPinned) : NothingPinned manager' where
  keys := by
    intro activation
    rw [Knows, htable]
    exact h.keys activation
  states := by
    intro f
    rcases hstate f with hsame | hnot
    · rw [hsame]
      exact h.states f
    · exact hnot

theorem NothingPinned.free (h : NothingPinned manager)
    (hkeys : StackKeys manager) {frame : Option (Fin frames)}
    {status : Status}
    (hcall : FreeOutcome manager file frame status manager' file') :
    NothingPinned manager' := by
  cases hcall with
  | noFrame => exact h
  | @freed f status file' removed hfree hremove =>
      refine h.congr (hkeys.removed hremove) fun g => ?_
      rw [state_setTable, state_pushFree]
      by_cases hg : g = f
      · right
        rw [hg, Function.update_self]
        decide
      · left
        rw [Function.update_of_ne hg]

theorem NothingPinned.flush (h : NothingPinned manager)
    (hloop : writebackLoop manager file = some (manager', file')) :
    NothingPinned manager' := by
  refine h.congr (same_of_loop manager file hloop).lookupTable fun f => ?_
  rcases state_of_loop manager file hloop f with
    ⟨-, hunpinned⟩ | ⟨-, hsame⟩
  · right
    rw [hunpinned]
    decide
  · exact Or.inl hsame

/-- A call keeps the table right exactly when it enters no key. -/
theorem NothingPinned.step_iff {s t : World frames}
    {event : BufferEvent frames} (h : NothingPinned s.manager)
    (hkeys : StackKeys s.manager) (hcall : bufferStep s event t) :
    NothingPinned t.manager ↔ EntersNoKey s event := by
  obtain ⟨manager, file⟩ := s
  obtain ⟨manager', file'⟩ := t
  cases event with
  | pin activation index status frame =>
      exact h.pin_iff (buffPin_eq_some_iff.mp hcall)
  | allocFrame activation pageFrame status pair =>
      exact h.alloc_iff (allocOutcome_of_buffAllocFrame hcall)
  | write frame page =>
      obtain ⟨rfl, -⟩ := hcall
      exact iff_of_true (h.congr rfl fun _ => Or.inl rfl) trivial
  | mark frame status =>
      refine iff_of_true ?_ trivial
      cases markOutcome_of_buffMarkPage hcall.1 with
      | clean hstate => exact absurd (Or.inl hstate) (h.states frame)
      | dirty hstate => exact h
      | refused hstate => exact h
  | unpin frame status =>
      refine iff_of_true ?_ trivial
      cases unpinOutcome_of_buffUnpin hcall.1 with
      | dirty removed hstate hremove =>
          exact absurd (Or.inr hstate) (h.states frame)
      | clean removed hstate hremove =>
          exact absurd (Or.inl hstate) (h.states frame)
      | refused hstate => exact h
  | freeFrame frame status =>
      exact iff_of_true (h.free hkeys (freeOutcome_of_buffFreeFrame hcall))
        trivial
  | flushAll status =>
      exact iff_of_true (h.flush (flushAll_eq_some hcall).2) trivial

/-! ## Runs -/

/-- From the initial manager on, the table finds the resident pages and no
others in every state of a run exactly when no call of the run enters a
key. -/
theorem lookup_right_iff {store : Backing} {hframes : 0 < frames}
    {file : StoreFile} {events : List (BufferEvent frames)}
    {t : World frames} :
    FindsResident (startWorld store hframes file).manager ∧
      (Run (Ensuring bufferStep fun _ _ u => FindsResident u.manager)
          (startWorld store hframes file) events t ↔
        Run (Guarded bufferStep EntersNoKey)
          (startWorld store hframes file) events t) := by
  have hkeys : StackKeys (startWorld store hframes file).manager := rfl
  have hstart : NothingPinned (startWorld store hframes file).manager := by
    refine ⟨fun _ => Bool.false_ne_true, fun f => ?_⟩
    rw [startWorld, state_buffCreate]
    decide
  refine ⟨findsResident_iff.mpr hstart, Run.ensuring_iff_guarded
    (I := fun s => NothingPinned s.manager ∧ StackKeys s.manager) ?_ ?_
    ⟨hstart, hkeys⟩⟩
  · rintro s event t ⟨h, hstack⟩ hcall
    rw [findsResident_iff]
    exact h.step_iff hstack hcall
  · rintro s event t ⟨-, hstack⟩ hcall hfinds
    exact ⟨findsResident_iff.mp hfinds, hstack.step hcall⟩

/-- After the first pin of a session, the table finds page 2, which is in no
pinned frame, and the frame it leads to holds page 1. -/
theorem lookup_finds_absent :
    ∃ t, Run bufferStep smallWorld [.pin 0 1 .ok (some 0)] t ∧
      t.manager.index 0 = 1 ∧ (∀ f, (t.manager.state f).IsPinned → f = 0) ∧
      buffPin 0 t.manager t.file 2 =
        some (.ok, some 0, t.manager, t.file) ∧
      ¬FindsResident t.manager := by
  refine ⟨pinnedWorld 1, .cons (smallWorld_pin (Nat.le_refl 1) (by decide))
    (.nil _), rfl, ?_, pinnedWorld_pin 1 (by decide), ?_⟩
  · decide
  · rw [findsResident_iff]
    intro h
    exact h.keys 0 rfl

/-- A refused pin and a call of `buff_free_frame` without a frame keep the table
right. -/
theorem lookup_right_of_refusals :
    ∃ t, Run (Ensuring bufferStep fun _ _ u => FindsResident u.manager)
      smallWorld [.pin 0 0 .metaPage none, .freeFrame none .err] t :=
  ⟨smallWorld, lookup_right_iff.2.mpr
    (.cons ⟨fun henters => henters.1 rfl, rfl⟩
      (.cons ⟨trivial, rfl⟩ (.nil smallWorld)))⟩

end NickDB

import NickDB.Buffer.Session

/-!
# Failures of `buff_pin`

`buff_pin` enters its key into the lookup table before it reads the page.  When
the read fails the key stays, so the next call from the same place on the stack
finds it and returns the first free frame without having read anything.  The
other failures come before the insertion and change nothing.
-/

namespace NickDB

open Runs BufferManager

variable {frames : ℕ}

/-- What a failing `buff_pin` must leave alone: the table, the lists, the meta
frames and the bytes of the frames that are not free. -/
structure PinUndone (manager manager' : BufferManager frames) : Prop where
  lookupTable : manager'.lookupTable = manager.lookupTable
  freelist : manager'.freelist = manager.freelist
  writeback : manager'.writeback = manager.writeback
  metaframes : manager'.metaframes = manager.metaframes
  buffer : ∀ f, manager.state f ≠ .unpinned →
    manager'.buffer f = manager.buffer f

/-- Whatever `first` can answer, `second` can answer too: the same calls, the
last of which pins the page `index`, return the same, and the frame that is
pinned holds the same bytes. -/
def PinsLike (index : PageIndex) (first second : BufferManager frames) :
    Prop :=
  ∀ file events activation status frame t,
    Run bufferStep ⟨first, file⟩
      (events ++ [.pin activation index status frame]) t →
    ∃ u, Run bufferStep ⟨second, file⟩
        (events ++ [.pin activation index status frame]) u ∧
      u.file = t.file ∧
      ∀ f ∈ frame, u.manager.buffer f = t.manager.buffer f

/-- A call that fails leaves the manager alone, and all later pins of the page
are answered as if it had not been made. -/
def FailsAtomically (activation : ℕ) (manager : BufferManager frames)
    (file : StoreFile) (index : PageIndex) : Prop :=
  ∀ status frame manager' file',
    buffPin activation manager file index =
      some (status, frame, manager', file') → status ≠ .ok →
    PinUndone manager manager' ∧ PinsLike index manager manager' ∧
      PinsLike index manager' manager

/-- The call comes to a read of the page that fails. -/
def ReadFails (activation : ℕ) (manager : BufferManager frames)
    (file : StoreFile) (index : PageIndex) : Prop :=
  index ≠ metadataIndex ∧ ∃ f, manager.freelist = some f ∧
    ¬manager.Knows activation ∧
    (getPage (manager.buffer f) manager.store file index).1 ≠ .ok

variable {manager manager' : BufferManager frames} {file file' : StoreFile}

theorem PinUndone.refl (manager : BufferManager frames) :
    PinUndone manager manager :=
  ⟨rfl, rfl, rfl, rfl, fun _ _ => rfl⟩

theorem PinsLike.refl (index : PageIndex) (manager : BufferManager frames) :
    PinsLike index manager manager :=
  fun _ _ _ _ _ t hrun => ⟨t, hrun, rfl, fun _ _ => rfl⟩

/-- All failures but that of the read leave the manager and the file alone. -/
theorem PinOutcome.same_or_readFails {activation : ℕ} {index : PageIndex}
    {status : Status} {frame : Option (Fin frames)}
    (hcall : PinOutcome activation manager file index status frame manager'
      file') (hstatus : status ≠ .ok) :
    (manager' = manager ∧ file' = file) ∨
      ReadFails activation manager file index := by
  cases hcall with
  | metaPage hindex => exact Or.inl ⟨rfl, rfl⟩
  | noFreeFrames hindex hfree => exact Or.inl ⟨rfl, rfl⟩
  | hit hindex hfree hknown => exact absurd rfl hstatus
  | unread hindex hfree hnew hget hread =>
      right
      refine ⟨hindex, _, hfree, hnew, ?_⟩
      rwa [hget]
  | taken hindex hfree hnew hget hnext => exact absurd rfl hstatus

/-- A read that fails: the status is that of the read, and the key and what was
read of the page stay. -/
theorem ReadFails.outcome {activation : ℕ} {index : PageIndex}
    (h : ReadFails activation manager file index) :
    ∃ f status page file₁, manager.freelist = some f ∧ status ≠ .ok ∧
      PinOutcome activation manager file index status none
        ((manager.learn activation).setBuffer f page) file₁ := by
  obtain ⟨hindex, f, hfree, hnew, hread⟩ := h
  obtain ⟨⟨status, page, file₁⟩, hget⟩ : ∃ result,
    getPage (manager.buffer f) manager.store file index = result := ⟨_, rfl⟩
  rw [hget] at hread
  exact ⟨f, status, page, file₁, hfree, hread,
    .unread hindex hfree hnew hget hread⟩

/-- Behind a failed read, the next pin from the same place succeeds without
reading, whatever page it asks for. -/
theorem buffPin_after_unread (activation : ℕ) {index : PageIndex}
    {f : Fin frames} (hindex : index ≠ metadataIndex)
    (hfree : manager.freelist = some f) (page : Page) (later : StoreFile) :
    buffPin activation ((manager.learn activation).setBuffer f page) later
        index =
      some (.ok, some f, (manager.learn activation).setBuffer f page,
        later) :=
  buffPin_of_hit hindex hfree (knows_learn manager activation)

/-- `buff_pin` fails atomically exactly when it does not come to a read that
fails. -/
theorem pin_atomic_iff (activation : ℕ) (manager : BufferManager frames)
    (file : StoreFile) (index : PageIndex) :
    FailsAtomically activation manager file index ↔
      ¬ReadFails activation manager file index := by
  constructor
  · intro hatomic hfails
    obtain ⟨f, status, page, file₁, hfree, hstatus, hcall⟩ := hfails.outcome
    obtain ⟨-, -, hlike⟩ := hatomic status none _ file₁
      (buffPin_eq_some_iff.mpr hcall) hstatus
    -- on the file of the first call the second one finds its key
    obtain ⟨t, hhit⟩ : ∃ t : World frames,
        bufferStep ⟨(manager.learn activation).setBuffer f page, file⟩
          (.pin activation index .ok (some f)) t :=
      ⟨⟨_, _⟩, buffPin_after_unread activation hfails.1 hfree page file⟩
    obtain ⟨u, hrun, -⟩ := hlike file [] activation .ok (some f) t
      (.cons hhit (.nil t))
    -- without the first call it would read, and fail as the first one did
    obtain ⟨v, hagain, -⟩ := run_cons_iff.mp hrun
    have hsame := (buffPin_eq_some_iff.mpr hcall).symm.trans hagain
    apply hstatus
    exact congrArg Prod.fst (Option.some.inj hsame)
  · intro hread status frame manager' file' hcall hstatus
    rcases (buffPin_eq_some_iff.mp hcall).same_or_readFails hstatus with
      ⟨rfl, rfl⟩ | hfails
    · exact ⟨PinUndone.refl _, PinsLike.refl _ _, PinsLike.refl _ _⟩
    · exact absurd hfails hread

/-- In a fresh session the read of page 1 fails; the pin of page 1 that follows
returns frame 0, into which nothing has been read. -/
theorem pin_not_atomic :
    ∃ manager' file', buffPin 0 smallWorld.manager
        ⟨blankStore 2, [.failed]⟩ 1 =
          some (.badRead, none, manager', file') ∧
      manager'.lookupTable ≠ smallWorld.manager.lookupTable ∧
      buffPin 0 manager' file' 1 = some (.ok, some 0, manager', file') ∧
      ¬FailsAtomically 0 smallWorld.manager ⟨blankStore 2, [.failed]⟩ 1 := by
  have hget : getPage (smallWorld.manager.buffer 0) smallWorld.manager.store
      ⟨blankStore 2, [.failed]⟩ 1 =
        (.badRead, blankPage, ⟨blankStore 2, []⟩) := rfl
  have hnew : ¬smallWorld.manager.Knows 0 := Bool.false_ne_true
  have hcall : PinOutcome 0 smallWorld.manager ⟨blankStore 2, [.failed]⟩ 1
      .badRead none _ _ := .unread (by decide) rfl hnew hget (by decide)
  refine ⟨_, _, buffPin_eq_some_iff.mpr hcall, ?_,
    buffPin_after_unread 0 (by decide) rfl _ _, ?_⟩
  · intro htable
    exact absurd (congrArg List.length htable) (by decide)
  · rw [pin_atomic_iff, not_not]
    refine ⟨by decide, 0, rfl, hnew, ?_⟩
    rw [hget]
    decide

end NickDB

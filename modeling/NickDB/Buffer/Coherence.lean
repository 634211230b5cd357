import NickDB.Buffer.HeadFrame
import NickDB.Buffer.Versions

/-!
# Coherence of the buffer

A pin that succeeds should return a pinned frame with the most recent bytes of
its page: the latest version that was marked, or the bytes of the store if
there is none.  On a table miss `buff_pin` reads the page from the store,
whether or not a frame holds a later version; on a hit it returns the first
free frame, whatever page is in it.  This module states exactly which pins find
what they should.
-/

namespace NickDB

open Runs BufferManager

variable {frames : ℕ}

/-- The calls of clients that mark what they write, with their results. -/
inductive ClientEvent (frames : ℕ)
  | pin (activation : ℕ) (index : PageIndex) (status : Status)
      (frame : Option (Fin frames))
  /-- A client writes to a frame and marks it. -/
  | modify (frame : Fin frames) (page : Page) (status : Status)
  | unpin (frame : Fin frames) (status : Status)
  | flushAll (status : Status)

/-- The steps of such clients, with the latest versions of the pages. -/
def modifyStep (s : World frames × Versions) (event : ClientEvent frames)
    (t : World frames × Versions) : Prop :=
  match event with
  | .pin activation index status frame =>
      versionStep s (.pin activation index status frame) t
  | .modify frame page status =>
      ∃ u, versionStep s (.write frame page) u ∧
        versionStep u (.mark frame status) t
  | .unpin frame status => versionStep s (.unpin frame status) t
  | .flushAll status => versionStep s (.flushAll status) t

/-- The most recent bytes of a page. -/
def contents (latest : Versions) (image : ByteFile UInt8)
    (index : PageIndex) : Page :=
  (latest (indexToOffset index)).getD (storedPage image (indexToOffset index))

/-- A pin that succeeds returns a pinned frame with the most recent bytes of
the page. -/
def Finds (latest : Versions) (index : PageIndex) (status : Status)
    (frame : Option (Fin frames)) (manager' : BufferManager frames)
    (file' : StoreFile) : Prop :=
  status = .ok → ∃ f, frame = some f ∧ (manager'.state f).IsPinned ∧
    manager'.index f = index ∧
    manager'.buffer f = contents latest file'.image index

/-- What the pin of an event finds is as it should be. -/
def Coherent (_ : World frames × Versions) (event : ClientEvent frames)
    (t : World frames × Versions) : Prop :=
  match event with
  | .pin _ index status frame =>
      Finds t.2 index status frame t.1.manager t.1.file
  | _ => True

/-- The pin is refused, or finds its key while the first free frame is pinned
for its page, or reads a page whose latest version, if there is one, is in the
store. -/
def PinsStored (latest : Versions) (activation : ℕ)
    (manager : BufferManager frames) (file : StoreFile) (index : PageIndex) :
    Prop :=
  index = metadataIndex ∨ ∀ f, manager.freelist = some f →
    if manager.Knows activation then
      (manager.state f).IsPinned ∧ manager.index f = index
    else
      let read := getPage (manager.buffer f) manager.store file index
      read.1 = .ok →
        ∀ version ∈ latest (indexToOffset index), version = read.2.1

/-- The condition on the pin of an event. -/
def ReadsLatest (s : World frames × Versions) : ClientEvent frames → Prop
  | .pin activation index _ _ =>
      PinsStored s.2 activation s.1.manager s.1.file index
  | _ => True

/-- The frame that is pinned has the most recent bytes of its page. -/
structure Coheres (head : Fin frames) (manager : BufferManager frames)
    (file : StoreFile) (latest : Versions) : Prop where
  headOnly : HeadOnly head manager
  whole : WholeFile file
  bytes : (manager.state head).IsPinned →
    manager.buffer head = contents latest file.image (manager.index head)

variable {head : Fin frames} {manager manager' : BufferManager frames}
  {file file' : StoreFile} {latest : Versions}

/-! ## Pins -/

/-- A page that is read from the store has the most recent bytes exactly if it
is no older than the latest version. -/
theorem eq_contents_iff {image : ByteFile UInt8} {index : PageIndex}
    {page : Page}
    (hpage : page = image.read (position (indexToOffset index)) pageSize) :
    page = contents latest image index ↔
      ∀ version ∈ latest (indexToOffset index), version = page := by
  unfold contents
  cases latest (indexToOffset index) with
  | none => exact iff_of_true hpage nofun
  | some version =>
      constructor
      · rintro heq _ ⟨⟩
        exact heq.symm
      · intro hall
        exact (hall version rfl).symm

theorem Coheres.pin_iff (h : Coheres head manager file latest)
    {activation : ℕ} {index : PageIndex} {status : Status}
    {frame : Option (Fin frames)}
    (hcall : PinOutcome activation manager file index status frame manager'
      file') :
    Finds latest index status frame manager' file' ↔
      PinsStored latest activation manager file index := by
  cases hcall with
  | metaPage hindex => exact iff_of_true nofun (Or.inl hindex)
  | noFreeFrames hindex hfree =>
      refine iff_of_true nofun (Or.inr fun f hf => ?_)
      exact absurd (hfree.symm.trans hf) (by simp)
  | @hit f hindex hfree hknown =>
      obtain rfl := Option.some.inj (h.headOnly.freelist.symm.trans hfree)
      have hguard : PinsStored latest activation manager file index ↔
          (manager.state head).IsPinned ∧ manager.index head = index := by
        simp [PinsStored, hindex, hfree, hknown]
      rw [hguard]
      constructor
      · intro hfinds
        obtain ⟨f, hf, hpinned, hpage, -⟩ := hfinds rfl
        obtain rfl := Option.some.inj hf
        exact ⟨hpinned, hpage⟩
      · rintro ⟨hpinned, rfl⟩ _
        exact ⟨head, rfl, hpinned, rfl, h.bytes hpinned⟩
  | @unread f status page file' hindex hfree hnew hget hstatus =>
      refine iff_of_true (fun hok => absurd hok hstatus) ?_
      simp [PinsStored, hfree, hnew, hget, hstatus]
  | @taken f next page file' hindex hfree hnew hget hnext =>
      obtain rfl := (h.whole.getPage hget).1
      have hguard : PinsStored latest activation manager file' index ↔
          ∀ version ∈ latest (indexToOffset index), version = page := by
        simp [PinsStored, hindex, hfree, hnew, hget]
      rw [hguard, ← eq_contents_iff (getPage_ok hget)]
      constructor
      · intro hfinds
        obtain ⟨g, hg, -, -, hbytes⟩ := hfinds rfl
        obtain rfl := Option.some.inj hg
        rwa [buffer_claim, buffer_setBuffer, Function.update_self] at hbytes
      · intro hbytes _
        refine ⟨f, rfl, ?_, ?_, ?_⟩
        · rw [state_claim, Function.update_self]
          exact Or.inl rfl
        · rw [index_claim, Function.update_self]
        · rw [buffer_claim, buffer_setBuffer, Function.update_self]
          exact hbytes

/-- A pin that finds the most recent bytes keeps the promise. -/
theorem Coheres.pin (h : Coheres head manager file latest) {activation : ℕ}
    {index : PageIndex} {status : Status} {frame : Option (Fin frames)}
    (hcall : PinOutcome activation manager file index status frame manager'
      file') (hfinds : Finds latest index status frame manager' file') :
    Coheres head manager' file' latest where
  headOnly := h.headOnly.pin hcall
  whole := by
    cases hcall with
    | metaPage hindex => exact h.whole
    | noFreeFrames hindex hfree => exact h.whole
    | hit hindex hfree hknown => exact h.whole
    | unread hindex hfree hnew hget hstatus =>
        rw [(h.whole.getPage hget).1]
        exact h.whole
    | taken hindex hfree hnew hget hnext =>
        rw [(h.whole.getPage hget).1]
        exact h.whole
  bytes := by
    intro hpinned
    cases hcall with
    | metaPage hindex => exact h.bytes hpinned
    | noFreeFrames hindex hfree => exact h.bytes hpinned
    | hit hindex hfree hknown => exact h.bytes hpinned
    | @unread f status page file' hindex hfree hnew hget hstatus =>
        obtain ⟨rfl, hdest⟩ := h.whole.getPage hget
        rw [buffer_setBuffer, hdest hstatus, buffer_learn,
          Function.update_eq_self]
        exact h.bytes hpinned
    | @taken f next page file' hindex hfree hnew hget hnext =>
        obtain rfl := Option.some.inj (h.headOnly.freelist.symm.trans hfree)
        obtain ⟨g, hg, -, hpage, hbytes⟩ := hfinds rfl
        obtain rfl := Option.some.inj hg
        rw [hpage]
        exact hbytes

/-! ## The other calls -/

theorem Coheres.modify (h : Coheres head manager file latest)
    {f : Fin frames} {page : Page} {status : Status}
    (hcall : MarkOutcome (manager.setBuffer f page) f status manager') :
    Coheres head manager' file
      (versionsAfter (manager.setBuffer f page)
        (versionsAfter manager latest (.write f page)) (.mark f status)) := by
  have hwrite : HeadOnly head (manager.setBuffer f page) :=
    h.headOnly.congr rfl rfl rfl fun _ hpinned => hpinned
  refine ⟨hwrite.mark hcall, h.whole, fun hpinned => ?_⟩
  have hmarked : (manager.state f).IsPinned → ∀ versions : Versions,
      Function.update manager.buffer f page head =
        contents (Function.update versions (manager.offset f) (some page))
          file.image (manager.index head) := by
    intro hf versions
    obtain rfl := h.headOnly.eq_head hf
    rw [Function.update_self, contents, BufferManager.offset,
      Function.update_self]
    rfl
  have hversion : (manager.setBuffer f page).buffer f = page := by
    rw [buffer_setBuffer, Function.update_self]
  cases hcall with
  | clean hstate =>
      simp only [versionsAfter, hversion, index_setState, index_setBuffer,
        buffer_setState, buffer_setBuffer]
      exact hmarked (Or.inl hstate) _
  | dirty hstate =>
      simp only [versionsAfter, hversion, index_setBuffer, buffer_setBuffer]
      exact hmarked (Or.inr hstate) _
  | refused hstate =>
      have hne : head ≠ f := by
        rintro rfl
        exact hstate hpinned
      have hdirty : manager.state f ≠ .pinnedDirty :=
        fun hdirty => hstate (Or.inr hdirty)
      simp only [versionsAfter, if_neg hdirty]
      rw [buffer_setBuffer, Function.update_of_ne hne]
      exact h.bytes hpinned

theorem Coheres.unpin (h : Coheres head manager file latest) {f : Fin frames}
    {status : Status} (hcall : UnpinOutcome manager f status manager') :
    Coheres head manager' file latest := by
  refine ⟨h.headOnly.unpin hcall, h.whole, fun hpinned => ?_⟩
  cases hcall with
  | dirty removed hstate hremove =>
      obtain rfl := h.headOnly.eq_head (Or.inr hstate)
      rw [state_setTable, state_pushDirty, Function.update_self] at hpinned
      exact absurd hpinned (by decide)
  | clean removed hstate hremove =>
      obtain rfl := h.headOnly.eq_head (Or.inl hstate)
      rw [state_setTable, state_pushFree, Function.update_self] at hpinned
      exact absurd hpinned (by decide)
  | refused hstate => exact h.bytes hpinned

/-- When the loop writes the frame, the frame is not pinned. -/
theorem Coheres.flush (h : Coheres head manager file latest)
    (hloop : writebackLoop manager file = some (manager', file')) :
    Coheres head manager' file' latest := by
  have hhead := h.headOnly.flush hloop
  rcases h.headOnly.loop hloop with ⟨-, rfl, rfl⟩ | ⟨hwriteback, rfl⟩
  · exact h
  · refine ⟨hhead, h.whole.putPage _, fun hpinned => ?_⟩
    have hsame := same_of_loop manager file hloop
    have hnone := hhead.writeback_of_pinned hpinned
    rw [hsame.writeback, hwriteback] at hnone
    cases hnone

/-! ## Runs -/

theorem coherent_iff {s t : World frames × Versions}
    {event : ClientEvent frames}
    (h : Coheres head s.1.manager s.1.file s.2)
    (hcall : modifyStep s event t) :
    Coherent s event t ↔ ReadsLatest s event := by
  obtain ⟨⟨manager, file⟩, latest⟩ := s
  obtain ⟨⟨manager', file'⟩, latest'⟩ := t
  cases event with
  | pin activation index status frame =>
      obtain ⟨hcall, rfl⟩ := hcall
      exact Coheres.pin_iff h (buffPin_eq_some_iff.mp hcall)
  | modify frame page status => exact Iff.rfl
  | unpin frame status => exact Iff.rfl
  | flushAll status => exact Iff.rfl

theorem Coheres.step {s t : World frames × Versions}
    {event : ClientEvent frames}
    (h : Coheres head s.1.manager s.1.file s.2)
    (hcall : modifyStep s event t) (hcoherent : Coherent s event t) :
    Coheres head t.1.manager t.1.file t.2 := by
  obtain ⟨⟨manager, file⟩, latest⟩ := s
  obtain ⟨⟨manager', file'⟩, latest'⟩ := t
  cases event with
  | pin activation index status frame =>
      obtain ⟨hcall, rfl⟩ := hcall
      exact Coheres.pin h (buffPin_eq_some_iff.mp hcall) hcoherent
  | modify frame page status =>
      obtain ⟨⟨⟨manager₁, file₁⟩, latest₁⟩, ⟨⟨hwrite, hfile⟩, hlatest⟩,
        ⟨hmark, hfile'⟩, hlatest'⟩ := hcall
      obtain rfl : manager₁ = manager.setBuffer frame page := hwrite
      obtain rfl : file₁ = file := hfile
      obtain rfl : file' = file₁ := hfile'
      obtain rfl : latest₁ = _ := hlatest
      obtain rfl : latest' = _ := hlatest'
      exact Coheres.modify h (markOutcome_of_buffMarkPage hmark)
  | unpin frame status =>
      obtain ⟨⟨hunpin, hfile⟩, hlatest⟩ := hcall
      obtain rfl : file' = file := hfile
      obtain rfl : latest' = latest := hlatest
      exact Coheres.unpin h (unpinOutcome_of_buffUnpin hunpin)
  | flushAll status =>
      obtain ⟨hflush, rfl⟩ := hcall
      exact Coheres.flush h (flushAll_eq_some hflush).2

end NickDB

import NickDB.Buffer.HeadFrame
import NickDB.Buffer.Versions

/-!
# Durability of flushes

When `buff_flush_all` or `buff_destroy` returns `STATUS_OK`, the latest version
of every page should be in the store.  `buff_flush_all` writes the frames on the
write-back list only, and ignores the status of each write; `buff_pin` reads
pages into the first free frame whatever it holds.  This module states calls
under which no version is lost and every flush writes what it should, for any
order of calls and any failing transfers.  `buff_destroy` comes to its end only
while nothing has been pinned, and then there is nothing to write.
-/

namespace NickDB

open Linked Runs BufferManager

variable {frames : ℕ}

/-- The frame holds bytes that are to be written. -/
def IsDirty (manager : BufferManager frames) (f : Fin frames) : Prop :=
  manager.state f = .pinnedDirty ∨
    Reaches manager.link manager.writeback f

/-- The latest versions are in the store. -/
def AllStored (latest : Versions) (file : StoreFile) : Prop :=
  ∀ offset version, latest offset = some version →
    storedPage file.image offset = version

/-- No write of the write-back loop fails. -/
def PutsSucceed (manager : BufferManager frames) (file : StoreFile) : Prop :=
  ∀ n f, (writebackAfter manager file n).metaframe = some f →
    ((writebackAfter manager file n).put f).1 = .ok

/-- A flush that returns `STATUS_OK` has written every dirty page. -/
def Durable (s : World frames × Versions) (event : BufferEvent frames)
    (t : World frames × Versions) : Prop :=
  match event with
  | .flushAll status => status = .ok →
      PutsSucceed s.1.manager s.1.file ∧ AllStored t.2 t.1.file
  | _ => True

/-- The pin does not read into a frame whose bytes are to be written. -/
def PinSparesDirty (activation : ℕ) (manager : BufferManager frames)
    (file : StoreFile) (index : PageIndex) : Prop :=
  index = metadataIndex ∨ manager.Knows activation ∨
    ∀ f, manager.freelist = some f → IsDirty manager f →
      let read := getPage (manager.buffer f) manager.store file index
      read.1 ≠ .ok ∧ read.2.1 = manager.buffer f

/-- The versions in frames that are pinned are in the store already, or in
frames on the write-back list, too. -/
def PinnedStored (manager : BufferManager frames) (file : StoreFile)
    (latest : Versions) : Prop :=
  ∀ f, manager.state f = .pinnedDirty →
    ∀ version ∈ latest (manager.offset f),
      storedPage file.image (manager.offset f) = version ∨
        ∃ g, Reaches manager.link manager.writeback g ∧
          manager.offset g = manager.offset f

/-- Dirty bytes are neither overwritten nor dropped, frames with the same page
have the same bytes when one of them is marked, and a flush does not have to
write frames that are pinned and has no write that fails. -/
def SparesVersions (s : World frames × Versions) :
    BufferEvent frames → Prop
  | .pin activation index _ _ =>
      PinSparesDirty activation s.1.manager s.1.file index
  | .allocFrame activation pageFrame _ _ => pageFrame = true →
      ∀ page file,
        allocPage none s.1.manager.store s.1.file = (.ok, page, file) →
        PinSparesDirty activation s.1.manager file page
  | .write f _ =>
      ¬Reaches s.1.manager.link s.1.manager.writeback f ∧
        (s.1.manager.state f = .pinnedDirty →
          ∀ g, g ≠ f → IsDirty s.1.manager g →
            s.1.manager.offset g ≠ s.1.manager.offset f)
  | .mark f _ => (s.1.manager.state f).IsPinned →
      ∀ g, g ≠ f → IsDirty s.1.manager g →
        s.1.manager.offset g = s.1.manager.offset f →
        s.1.manager.buffer g = s.1.manager.buffer f
  | .unpin _ _ => True
  | .freeFrame frame _ => ∀ f ∈ frame,
      ¬Reaches s.1.manager.link s.1.manager.writeback f ∧
        (s.1.manager.state f = .pinnedDirty →
          (freePage s.1.manager.store s.1.file (s.1.manager.index f)).1 = .ok)
  | .flushAll _ => PutsSucceed s.1.manager s.1.file ∧
      PinnedStored s.1.manager s.1.file s.2

/-- Every latest version is in a dirty frame, and dirty frames hold latest
versions only. -/
structure VersionsCarried (manager : BufferManager frames)
    (latest : Versions) : Prop where
  listed : ∀ f, Reaches manager.link manager.writeback f →
    ¬(manager.state f).IsPinned
  current : ∀ f, IsDirty manager f → ∀ version ∈ latest (manager.offset f),
    manager.buffer f = version
  carried : ∀ offset version, latest offset = some version →
    ∃ f, IsDirty manager f ∧ manager.offset f = offset

variable {manager manager' : BufferManager frames} {file file' : StoreFile}
  {latest : Versions}

/-! ## Dirty frames -/

theorem VersionsCarried.not_listed (h : VersionsCarried manager latest)
    {f : Fin frames} (hf : (manager.state f).IsPinned) :
    ¬Reaches manager.link manager.writeback f :=
  fun hlisted => h.listed f hlisted hf

theorem VersionsCarried.not_dirty (h : VersionsCarried manager latest)
    {f : Fin frames} (hf : manager.state f = .pinned) :
    ¬IsDirty manager f := by
  rintro (hdirty | hlisted)
  · exact absurd (hf.symm.trans hdirty) (by decide)
  · exact h.listed f hlisted (Or.inl hf)

/-- A call that keeps the dirty frames, with their bytes and their pages, keeps
the versions. -/
theorem VersionsCarried.frame (h : VersionsCarried manager latest)
    (hlisted : ∀ f, Reaches manager'.link manager'.writeback f →
      ¬(manager'.state f).IsPinned)
    (hdirty : ∀ f, IsDirty manager' f ↔ IsDirty manager f)
    (hbuffer : ∀ f, IsDirty manager f → manager'.buffer f = manager.buffer f)
    (hoffset : ∀ f, IsDirty manager f → manager'.offset f = manager.offset f) :
    VersionsCarried manager' latest where
  listed := hlisted
  current := by
    intro f hf version hversion
    rw [hdirty] at hf
    rw [hoffset f hf] at hversion
    rw [hbuffer f hf]
    exact h.current f hf version hversion
  carried := by
    intro offset version hversion
    obtain ⟨f, hf, hpage⟩ := h.carried offset version hversion
    exact ⟨f, (hdirty f).mpr hf, (hoffset f hf).trans hpage⟩

/-- A frame off the write-back list is changed, and is dirty neither before nor
after. -/
theorem VersionsCarried.edit (h : VersionsCarried manager latest)
    {f : Fin frames} (hf : ¬IsDirty manager f)
    (hstate : manager'.state f ≠ .pinnedDirty)
    (hwriteback : manager'.writeback = manager.writeback)
    (hlink : ∀ g, g ≠ f → manager'.link g = manager.link g)
    (hother : ∀ g, g ≠ f → manager'.state g = manager.state g ∧
      manager'.buffer g = manager.buffer g ∧
      manager'.index g = manager.index g) :
    VersionsCarried manager' latest := by
  have hnot : ¬Reaches manager.link manager.writeback f :=
    fun hlisted => hf (Or.inr hlisted)
  have hreaches : ∀ g, Reaches manager'.link manager'.writeback g ↔
      Reaches manager.link manager.writeback g := by
    intro g
    rw [hwriteback]
    exact reaches_edit_iff hnot hlink
  have hne : ∀ g, IsDirty manager g → g ≠ f := by
    rintro g hg rfl
    exact hf hg
  refine h.frame ?_ ?_ ?_ ?_
  · intro g hg
    rw [hreaches] at hg
    rw [(hother g (hne g (Or.inr hg))).1]
    exact h.listed g hg
  · intro g
    by_cases hgf : g = f
    · subst hgf
      refine iff_of_false ?_ hf
      rintro (hdirty | hlisted)
      · exact hstate hdirty
      · exact hnot ((hreaches g).mp hlisted)
    · rw [IsDirty, IsDirty, hreaches, (hother g hgf).1]
  · intro g hg
    exact (hother g (hne g hg)).2.1
  · intro g hg
    exact congrArg indexToOffset (hother g (hne g hg)).2.2

/-! ## Pins -/

theorem VersionsCarried.pin (h : VersionsCarried manager latest)
    {activation : ℕ} {index : PageIndex} {status : Status}
    {frame : Option (Fin frames)}
    (hcall : PinOutcome activation manager file index status frame manager'
      file')
    (hspares : PinSparesDirty activation manager file index) :
    VersionsCarried manager' latest := by
  cases hcall with
  | metaPage hindex => exact h
  | noFreeFrames hindex hfree => exact h
  | hit hindex hfree hknown => exact h
  | @unread f status page file' hindex hfree hnew hget hstatus =>
      refine h.frame h.listed (fun _ => Iff.rfl) ?_ fun _ _ => rfl
      intro g hg
      rw [buffer_setBuffer, buffer_learn]
      by_cases hgf : g = f
      · subst hgf
        have hread :=
          ((hspares.resolve_left hindex).resolve_left hnew) g hfree hg
        rw [hget] at hread
        rw [Function.update_self]
        exact hread.2
      · rw [Function.update_of_ne hgf]
  | @taken f next page file' hindex hfree hnew hget hnext =>
      have hf : ¬IsDirty manager f := by
        intro hdirty
        have hread := ((hspares.resolve_left hindex).resolve_left hnew) f hfree
          hdirty
        rw [hget] at hread
        exact hread.1 rfl
      refine h.edit hf ?_ rfl ?_ ?_
      · rw [state_claim, Function.update_self]
        decide
      · intro g hg
        rw [link_claim, Function.update_of_ne hg]
        rfl
      · intro g hg
        rw [state_claim, buffer_claim, index_claim, Function.update_of_ne hg,
          Function.update_of_ne hg, buffer_setBuffer, Function.update_of_ne hg]
        exact ⟨rfl, rfl, rfl⟩

theorem VersionsCarried.alloc (h : VersionsCarried manager latest)
    {activation : ℕ} {pageFrame : Bool} {status : Status}
    {pair : Option (Fin frames × PageIndex)}
    (hcall : AllocOutcome activation manager file pageFrame status pair
      manager' file')
    (hspares : pageFrame = true → ∀ page file₁,
      allocPage none manager.store file = (.ok, page, file₁) →
      PinSparesDirty activation manager file₁ page) :
    VersionsCarried manager' latest := by
  cases hcall with
  | noPair => exact h
  | refused halloc hstatus => exact h
  | unpinned halloc hpin hstatus => exact h.pin hpin (hspares rfl _ _ halloc)
  | pinned halloc hpin => exact h.pin hpin (hspares rfl _ _ halloc)

/-! ## New versions -/

theorem VersionsCarried.write (h : VersionsCarried manager latest)
    {f : Fin frames} (page : Page)
    (hlisted : ¬Reaches manager.link manager.writeback f)
    (halone : manager.state f = .pinnedDirty → ∀ g, g ≠ f →
      IsDirty manager g → manager.offset g ≠ manager.offset f) :
    VersionsCarried (manager.setBuffer f page)
      (versionsAfter manager latest (.write f page)) := by
  by_cases hstate : manager.state f = .pinnedDirty
  · simp only [versionsAfter, if_pos hstate]
    refine ⟨h.listed, ?_, ?_⟩
    · intro g hg version hversion
      have hg' : IsDirty manager g := hg
      rw [buffer_setBuffer]
      by_cases hgf : g = f
      · subst hgf
        have hpage : Function.update latest (manager.offset g) (some page)
            (manager.offset g) = some version := hversion
        rw [Function.update_self] at hpage ⊢
        exact Option.some.inj hpage
      · have hversion' : Function.update latest (manager.offset f) (some page)
            (manager.offset g) = some version := hversion
        rw [Function.update_of_ne (halone hstate g hgf hg')] at hversion'
        rw [Function.update_of_ne hgf]
        exact h.current g hg' version hversion'
    · intro offset version hversion
      by_cases hoffset : offset = manager.offset f
      · exact ⟨f, Or.inl hstate, hoffset.symm⟩
      · rw [Function.update_of_ne hoffset] at hversion
        exact h.carried offset version hversion
  · simp only [versionsAfter, if_neg hstate]
    have hf : ¬IsDirty manager f := not_or.mpr ⟨hstate, hlisted⟩
    refine h.edit hf hstate rfl (fun _ _ => rfl) fun g hg => ?_
    rw [buffer_setBuffer, Function.update_of_ne hg]
    exact ⟨rfl, rfl, rfl⟩

/-- The frame `f` becomes dirty, if it is not yet, and its bytes the latest
version of its page. -/
theorem VersionsCarried.marked (h : VersionsCarried manager latest)
    {f : Fin frames} (hf : (manager.state f).IsPinned)
    (hsame : ∀ g, g ≠ f → IsDirty manager g →
      manager.offset g = manager.offset f →
      manager.buffer g = manager.buffer f) :
    VersionsCarried (manager.setState f .pinnedDirty)
      (Function.update latest (manager.offset f)
        (some (manager.buffer f))) := by
  have hoffset : (manager.setState f .pinnedDirty).offset = manager.offset := by
    funext g
    rw [BufferManager.offset, index_setState]
    rfl
  have hdirty : ∀ g, g ≠ f → IsDirty (manager.setState f .pinnedDirty) g →
      IsDirty manager g := by
    intro g hg hg'
    rwa [IsDirty, state_setState, link_setState, Function.update_of_ne hg]
      at hg'
  refine ⟨?_, ?_, ?_⟩
  · intro g hg
    rw [link_setState] at hg
    have hne : g ≠ f := by
      rintro rfl
      exact h.not_listed hf hg
    rw [state_setState, Function.update_of_ne hne]
    exact h.listed g hg
  · intro g hg version hversion
    rw [hoffset] at hversion
    rw [buffer_setState]
    by_cases hgf : g = f
    · subst hgf
      rw [Function.update_self] at hversion
      exact Option.some.inj hversion
    · by_cases hpage : manager.offset g = manager.offset f
      · rw [hpage, Function.update_self] at hversion
        rw [hsame g hgf (hdirty g hgf hg) hpage]
        exact Option.some.inj hversion
      · rw [Function.update_of_ne hpage] at hversion
        exact h.current g (hdirty g hgf hg) version hversion
  · intro offset version hversion
    rw [hoffset]
    by_cases hpage : offset = manager.offset f
    · refine ⟨f, Or.inl ?_, hpage.symm⟩
      rw [state_setState, Function.update_self]
    · rw [Function.update_of_ne hpage] at hversion
      obtain ⟨g, hg, hgoffset⟩ := h.carried offset version hversion
      refine ⟨g, ?_, hgoffset⟩
      have hne : g ≠ f := by
        rintro rfl
        exact hpage hgoffset.symm
      rwa [IsDirty, state_setState, link_setState, Function.update_of_ne hne]

theorem setState_self {f : Fin frames} {st : FrameState}
    (hstate : manager.state f = st) : manager.setState f st = manager := by
  subst hstate
  simp [setState, setMeta, BufferManager.state]

theorem VersionsCarried.mark (h : VersionsCarried manager latest)
    {f : Fin frames} {status : Status}
    (hcall : MarkOutcome manager f status manager')
    (hsame : (manager.state f).IsPinned → ∀ g, g ≠ f → IsDirty manager g →
      manager.offset g = manager.offset f →
      manager.buffer g = manager.buffer f) :
    VersionsCarried manager'
      (versionsAfter manager latest (.mark f status)) := by
  cases hcall with
  | clean hstate => exact h.marked (Or.inl hstate) (hsame (Or.inl hstate))
  | dirty hstate =>
      have hmarked := h.marked (Or.inr hstate) (hsame (Or.inr hstate))
      rwa [setState_self hstate] at hmarked
  | refused hstate => exact h

/-! ## Unpinning and freeing -/

/-- A dirty frame goes from its clients to the write-back list. -/
theorem VersionsCarried.pushDirty (h : VersionsCarried manager latest)
    {f : Fin frames} (hf : manager.state f = .pinnedDirty) :
    VersionsCarried (manager.pushDirty f) latest := by
  have hnot := h.not_listed (Or.inr hf)
  have hreaches : ∀ g, Reaches (manager.pushDirty f).link
      (manager.pushDirty f).writeback g ↔
        g = f ∨ Reaches manager.link manager.writeback g := by
    intro g
    rw [writeback_pushDirty, reaches_some_iff, link_pushDirty,
      Function.update_self]
    exact or_congr_right
      (reaches_edit_iff hnot fun z hz => Function.update_of_ne hz ..)
  refine h.frame ?_ ?_ (fun _ _ => rfl) fun g _ => ?_
  · intro g hg
    rw [state_pushDirty]
    by_cases hgf : g = f
    · rw [hgf, Function.update_self]
      decide
    · rw [Function.update_of_ne hgf]
      exact h.listed g (((hreaches g).mp hg).resolve_left hgf)
  · intro g
    rw [IsDirty, IsDirty, hreaches, state_pushDirty]
    by_cases hgf : g = f
    · subst hgf
      exact iff_of_true (Or.inr (Or.inl rfl)) (Or.inl hf)
    · rw [Function.update_of_ne hgf, or_iff_right hgf]
  · rw [BufferManager.offset, index_pushDirty]
    rfl

/-- A frame that is not dirty goes to the free list. -/
theorem VersionsCarried.pushFree (h : VersionsCarried manager latest)
    {f : Fin frames} (hf : ¬IsDirty manager f) :
    VersionsCarried (manager.pushFree f) latest := by
  refine h.edit hf ?_ rfl ?_ ?_
  · rw [state_pushFree, Function.update_self]
    decide
  · intro g hg
    rw [link_pushFree, Function.update_of_ne hg]
  · intro g hg
    rw [state_pushFree, index_pushFree, Function.update_of_ne hg]
    exact ⟨rfl, rfl, rfl⟩

theorem VersionsCarried.setTable (h : VersionsCarried manager latest)
    (table : LookupTable) : VersionsCarried (manager.setTable table) latest :=
  ⟨h.listed, h.current, h.carried⟩

theorem VersionsCarried.unpin (h : VersionsCarried manager latest)
    {f : Fin frames} {status : Status}
    (hcall : UnpinOutcome manager f status manager') :
    VersionsCarried manager' latest := by
  cases hcall with
  | dirty removed hstate hremove => exact (h.pushDirty hstate).setTable _
  | clean removed hstate hremove =>
      exact (h.pushFree (h.not_dirty hstate)).setTable _
  | refused hstate => exact h

/-- The page of a dirty frame is freed: its version does not count any
more. -/
theorem VersionsCarried.drop (h : VersionsCarried manager latest)
    {f : Fin frames} (hlisted : ¬Reaches manager.link manager.writeback f) :
    VersionsCarried (manager.pushFree f)
      (Function.update latest (manager.offset f) none) := by
  have hoffset : (manager.pushFree f).offset = manager.offset := by
    funext g
    rw [BufferManager.offset, index_pushFree]
    rfl
  have hreaches : ∀ g, Reaches (manager.pushFree f).link
      (manager.pushFree f).writeback g ↔
        Reaches manager.link manager.writeback g := by
    intro g
    rw [writeback_pushFree, link_pushFree]
    exact reaches_edit_iff hlisted fun z hz => Function.update_of_ne hz ..
  have hdirty : ∀ g, g ≠ f →
      (IsDirty (manager.pushFree f) g ↔ IsDirty manager g) := by
    intro g hg
    rw [IsDirty, IsDirty, hreaches, state_pushFree, Function.update_of_ne hg]
  have hversion : ∀ offset version,
      Function.update latest (manager.offset f) none offset = some version →
        offset ≠ manager.offset f ∧ latest offset = some version := by
    intro offset version hsome
    have hne : offset ≠ manager.offset f := by
      rintro rfl
      rw [Function.update_self] at hsome
      cases hsome
    rw [Function.update_of_ne hne] at hsome
    exact ⟨hne, hsome⟩
  refine ⟨?_, ?_, ?_⟩
  · intro g hg
    rw [hreaches] at hg
    have hne : g ≠ f := by
      rintro rfl
      exact hlisted hg
    rw [state_pushFree, Function.update_of_ne hne]
    exact h.listed g hg
  · intro g hg version hsome
    rw [hoffset] at hsome
    obtain ⟨hne, hlatest⟩ := hversion _ _ hsome
    have hgf : g ≠ f := by
      rintro rfl
      exact hne rfl
    rw [buffer_pushFree]
    exact h.current g ((hdirty g hgf).mp hg) version hlatest
  · intro offset version hsome
    obtain ⟨hne, hlatest⟩ := hversion _ _ hsome
    obtain ⟨g, hg, hpage⟩ := h.carried offset version hlatest
    have hgf : g ≠ f := by
      rintro rfl
      exact hne hpage.symm
    exact ⟨g, (hdirty g hgf).mpr hg, by rwa [hoffset]⟩

theorem versionsAfter_freeFrame_of_ne {status : Status}
    (frame : Option (Fin frames)) (hstatus : status ≠ .ok) :
    versionsAfter manager latest (.freeFrame frame status) = latest := by
  unfold versionsAfter
  split
  next heq => cases heq
  next heq => cases heq
  next heq =>
    injection heq with _ hok
    exact absurd hok hstatus
  next => rfl

theorem VersionsCarried.free (h : VersionsCarried manager latest)
    {frame : Option (Fin frames)} {status : Status}
    (hcall : FreeOutcome manager file frame status manager' file')
    (hspares : ∀ f ∈ frame,
      ¬Reaches manager.link manager.writeback f ∧
        (manager.state f = .pinnedDirty →
          (freePage manager.store file (manager.index f)).1 = .ok)) :
    VersionsCarried manager'
      (versionsAfter manager latest (.freeFrame frame status)) := by
  cases hcall with
  | noFrame => exact h
  | @freed f status file' removed hfree hremove =>
      obtain ⟨hlisted, hdirty⟩ := hspares f rfl
      by_cases hstatus : status = .ok
      · subst hstatus
        exact (h.drop hlisted).setTable _
      · rw [versionsAfter_freeFrame_of_ne _ hstatus]
        have hf : ¬IsDirty manager f := by
          rintro (hstate | hreaches)
          · rw [hfree] at hdirty
            exact hstatus (hdirty hstate)
          · exact hlisted hreaches
        exact (h.pushFree hf).setTable _

/-! ## Flushes -/

/-- A turn that writes the frame `f` stores its bytes, and no other page is
changed. -/
theorem storedPage_next {n : ℕ} {f : Fin frames}
    (hmeta : (writebackAfter manager file n).metaframe = some f)
    (hput : ((writebackAfter manager file n).put f).1 = .ok)
    (index : PageIndex) :
    storedPage (writebackAfter manager file (n + 1)).file.image
        (indexToOffset index) =
      if indexToOffset index = manager.offset f then manager.buffer f
      else storedPage (writebackAfter manager file n).file.image
        (indexToOffset index) := by
  have hsame := writebackAfter_same manager file n
  obtain ⟨hzero, hneg, himage⟩ := putPage_ok hput
  rw [writebackAfter_succ, Cursor.next_of_some hmeta]
  have hfile : ((writebackAfter manager file n).put f).2.image =
      (writebackAfter manager file n).file.image.write
        (position (manager.offset f)) (manager.buffer f) := by
    rw [Cursor.put, himage, hsame.index, hsame.buffer]
    rfl
  rw [hsame.index] at hzero hneg
  simp only [hfile]
  by_cases hpage : indexToOffset index = manager.offset f
  · rw [if_pos hpage, hpage, storedPage_write_self]
  · rw [if_neg hpage]
    exact storedPage_write_of_ne _ hzero hneg hpage

/-- A page that is stored stays so while the frames with this page have its
bytes. -/
theorem storedPage_of_le (hputs : PutsSucceed manager file)
    {index : PageIndex} {version : Page}
    (hsame : ∀ f, Reaches manager.link manager.writeback f →
      manager.offset f = indexToOffset index → manager.buffer f = version)
    {n m : ℕ} (hnm : n ≤ m)
    (hstored : storedPage (writebackAfter manager file n).file.image
      (indexToOffset index) = version) :
    storedPage (writebackAfter manager file m).file.image
      (indexToOffset index) = version := by
  induction m, hnm using Nat.le_induction with
  | base => exact hstored
  | succ m _ ih =>
      cases hmeta : (writebackAfter manager file m).metaframe with
      | none => rwa [writebackAfter_succ, Cursor.next_of_none hmeta]
      | some f =>
          rw [storedPage_next hmeta (hputs m f hmeta)]
          split
          next hpage =>
            rw [metaframe_writebackAfter] at hmeta
            exact hsame f (reaches_of_walk hmeta) hpage.symm
          next => exact ih

/-- After a loop whose writes all succeed, the bytes of every frame on the
write-back list are stored, if all frames with its page agree on them. -/
theorem storedPage_of_loop (hputs : PutsSucceed manager file)
    (hloop : writebackLoop manager file = some (manager', file'))
    {index : PageIndex} {version : Page}
    (hsame : ∀ f, Reaches manager.link manager.writeback f →
      manager.offset f = indexToOffset index → manager.buffer f = version)
    (hstored : storedPage file.image (indexToOffset index) = version ∨
      ∃ f, Reaches manager.link manager.writeback f ∧
        manager.offset f = indexToOffset index) :
    storedPage file'.image (indexToOffset index) = version := by
  obtain ⟨⟨xs, hchain⟩, -, rfl⟩ := (writebackLoop_eq_some_iff ..).mp hloop
  rcases hstored with hstored | ⟨f, hreaches, hpage⟩
  · exact storedPage_of_le hputs hsame (Nat.zero_le frames) hstored
  · obtain ⟨n, hn⟩ := exists_walk_of_reaches hreaches
    rw [← metaframe_writebackAfter manager file] at hn
    have hend := metaframe_writebackAfter_frames manager file hchain
    have hlt : n < frames := by
      by_contra hge
      rw [writebackAfter_of_le manager file (not_lt.mp hge) hend, hend] at hn
      cases hn
    refine storedPage_of_le hputs hsame hlt ?_
    rw [storedPage_next hn (hputs n f hn), if_pos hpage.symm]
    exact hsame f hreaches hpage

theorem VersionsCarried.flush (h : VersionsCarried manager latest)
    (hloop : writebackLoop manager file = some (manager', file')) :
    VersionsCarried manager' latest := by
  have hsame := same_of_loop manager file hloop
  have hstate : ∀ f, manager'.state f = .unpinned ∧
      Reaches manager.link manager.writeback f ∨
        manager'.state f = manager.state f := by
    intro f
    rcases state_of_loop manager file hloop f with
      ⟨hwrites, hstate⟩ | ⟨-, hstate⟩
    · exact Or.inl ⟨hstate, hwrites.reaches⟩
    · exact Or.inr hstate
  refine h.frame ?_ ?_ (fun f _ => congrFun hsame.buffer f) fun f _ => ?_
  · intro f hf
    rw [hsame.link, hsame.writeback] at hf
    rcases hstate f with ⟨hunpinned, -⟩ | hkept
    · rw [hunpinned]
      decide
    · rw [hkept]
      exact h.listed f hf
  · intro f
    rw [IsDirty, IsDirty, hsame.link, hsame.writeback]
    rcases hstate f with ⟨-, hreaches⟩ | hkept
    · exact iff_of_true (Or.inr hreaches) (Or.inr hreaches)
    · rw [hkept]
  · exact congrArg indexToOffset (congrFun hsame.index f)

/-- What a flush stores. -/
theorem VersionsCarried.allStored (h : VersionsCarried manager latest)
    (hloop : writebackLoop manager file = some (manager', file'))
    (hputs : PutsSucceed manager file)
    (hpinned : PinnedStored manager file latest) :
    AllStored latest file' := by
  intro offset version hversion
  obtain ⟨f, hdirty, rfl⟩ := h.carried offset version hversion
  refine storedPage_of_loop hputs hloop ?_ ?_
  · intro g hg hpage
    refine h.current g (Or.inr hg) version ?_
    rw [hpage]
    exact hversion
  · rcases hdirty with hstate | hreaches
    · exact hpinned f hstate version hversion
    · exact Or.inr ⟨f, hreaches, rfl⟩

/-! ## Destroying the manager -/

/-- While the lookup table is empty nothing is pinned or marked; no key is an
address on the heap. -/
structure TableFirst (manager : BufferManager frames) (latest : Versions) :
    Prop where
  keys : StackKeys manager
  unpinned : manager.lookupTable = [] → ∀ f, ¬(manager.state f).IsPinned
  unwritten : manager.lookupTable = [] → manager.writeback = none
  unmarked : manager.lookupTable = [] → ∀ offset, latest offset = none

/-- Once the table has a key nothing is left to show. -/
theorem tableFirst_of_ne_nil (hkeys : StackKeys manager)
    (htable : manager.lookupTable ≠ []) : TableFirst manager latest where
  keys := hkeys
  unpinned := fun hnil => absurd hnil htable
  unwritten := fun hnil => absurd hnil htable
  unmarked := fun hnil => absurd hnil htable

theorem TableFirst.ne_nil_of_pinned (h : TableFirst manager latest)
    {f : Fin frames} (hf : (manager.state f).IsPinned) :
    manager.lookupTable ≠ [] :=
  fun hnil => h.unpinned hnil f hf

theorem TableFirst.pin (h : TableFirst manager latest) {activation : ℕ}
    {index : PageIndex} {status : Status} {frame : Option (Fin frames)}
    (hcall : PinOutcome activation manager file index status frame manager'
      file') : TableFirst manager' latest := by
  have hkeys := stackKeys_pin h.keys hcall
  cases hcall with
  | metaPage hindex => exact h
  | noFreeFrames hindex hfree => exact h
  | hit hindex hfree hknown => exact h
  | unread hindex hfree hnew hget hstatus =>
      exact tableFirst_of_ne_nil hkeys (List.cons_ne_nil _ _)
  | taken hindex hfree hnew hget hnext =>
      exact tableFirst_of_ne_nil hkeys (List.cons_ne_nil _ _)

theorem TableFirst.unpin (h : TableFirst manager latest) {f : Fin frames}
    {status : Status} (hkeys : StackKeys manager')
    (hcall : UnpinOutcome manager f status manager') :
    TableFirst manager' latest := by
  cases hcall with
  | dirty removed hstate hremove =>
      refine tableFirst_of_ne_nil hkeys ?_
      exact (h.keys.removed hremove).symm ▸ h.ne_nil_of_pinned (Or.inr hstate)
  | clean removed hstate hremove =>
      refine tableFirst_of_ne_nil hkeys ?_
      exact (h.keys.removed hremove).symm ▸ h.ne_nil_of_pinned (Or.inl hstate)
  | refused hstate => exact h

theorem TableFirst.free (h : TableFirst manager latest)
    {frame : Option (Fin frames)} {status : Status}
    (hkeys : StackKeys manager')
    (hcall : FreeOutcome manager file frame status manager' file') :
    TableFirst manager'
      (versionsAfter manager latest (.freeFrame frame status)) := by
  cases hcall with
  | noFrame => exact h
  | @freed f status file' removed hfree hremove =>
      have htable := h.keys.removed hremove
      refine ⟨hkeys, fun hnil g => ?_, fun hnil => ?_, fun hnil offset => ?_⟩
      · rw [state_setTable, state_pushFree]
        by_cases hgf : g = f
        · rw [hgf, Function.update_self]
          decide
        · rw [Function.update_of_ne hgf]
          exact h.unpinned (htable.symm.trans hnil) g
      · exact h.unwritten (htable.symm.trans hnil)
      · have hnone := h.unmarked (htable.symm.trans hnil)
        by_cases hstatus : status = .ok
        · subst hstatus
          rw [versionsAfter, Function.update_apply]
          split
          · rfl
          · exact hnone offset
        · rw [versionsAfter_freeFrame_of_ne _ hstatus]
          exact hnone offset

theorem TableFirst.flush (h : TableFirst manager latest)
    (hkeys : StackKeys manager')
    (hloop : writebackLoop manager file = some (manager', file')) :
    TableFirst manager' latest := by
  have hsame := same_of_loop manager file hloop
  refine ⟨hkeys, fun hnil f => ?_, fun hnil => ?_, fun hnil => ?_⟩
  · rw [hsame.lookupTable] at hnil
    rcases state_of_loop manager file hloop f with ⟨-, hstate⟩ | ⟨-, hstate⟩
    · rw [hstate]
      decide
    · rw [hstate]
      exact h.unpinned hnil f
  · rw [hsame.lookupTable] at hnil
    rw [hsame.writeback]
    exact h.unwritten hnil
  · rw [hsame.lookupTable] at hnil
    exact h.unmarked hnil

theorem TableFirst.step {s t : World frames × Versions}
    {event : BufferEvent frames} (h : TableFirst s.1.manager s.2)
    (hcall : versionStep s event t) : TableFirst t.1.manager t.2 := by
  have hkeys := h.keys.step hcall.1
  obtain ⟨⟨manager, file⟩, latest⟩ := s
  obtain ⟨⟨manager', file'⟩, latest'⟩ := t
  obtain ⟨hcall, hlatest⟩ := hcall
  obtain rfl : latest' = versionsAfter manager latest event := hlatest
  cases event with
  | pin activation index status frame =>
      exact TableFirst.pin h (buffPin_eq_some_iff.mp hcall)
  | allocFrame activation pageFrame status pair =>
      exact (allocOutcome_of_buffAllocFrame hcall).keeps
        (P := fun manager => TableFirst manager latest) h (TableFirst.pin h)
  | write frame page =>
      obtain rfl : manager' = manager.setBuffer frame page := hcall.1
      refine ⟨hkeys, h.unpinned, h.unwritten, fun hnil offset => ?_⟩
      have hstate : manager.state frame ≠ .pinnedDirty :=
        fun hdirty => h.unpinned hnil frame (Or.inr hdirty)
      simp only [versionsAfter, if_neg hstate]
      exact h.unmarked hnil offset
  | mark frame status =>
      cases markOutcome_of_buffMarkPage hcall.1 with
      | clean hstate =>
          exact tableFirst_of_ne_nil hkeys (h.ne_nil_of_pinned (Or.inl hstate))
      | dirty hstate =>
          exact tableFirst_of_ne_nil hkeys (h.ne_nil_of_pinned (Or.inr hstate))
      | refused hstate => exact h
  | unpin frame status =>
      exact TableFirst.unpin h hkeys (unpinOutcome_of_buffUnpin hcall.1)
  | freeFrame frame status =>
      exact TableFirst.free h hkeys (freeOutcome_of_buffFreeFrame hcall)
  | flushAll status =>
      exact TableFirst.flush h hkeys (flushAll_eq_some hcall).2

/-- `buff_destroy` frees the keys of the table, so it only returns when there
are none. -/
theorem TableFirst.destroy (h : TableFirst manager latest) {status : Status}
    (hcall : buffDestroy manager file = some (status, file')) :
    PutsSucceed manager file ∧ AllStored latest file' := by
  have hnil : manager.lookupTable = [] := by
    unfold buffDestroy at hcall
    split at hcall
    next => cases hcall
    next manager₁ file₁ hloop =>
      have hkeys := h.keys
      rw [StackKeys, ← (same_of_loop _ _ hloop).lookupTable] at hkeys
      rw [← (same_of_loop _ _ hloop).lookupTable]
      split at hcall
      next => cases hcall
      next hdestroy =>
        cases htable : manager₁.lookupTable with
        | nil => rfl
        | cons entry rest =>
            have hheap : entry = (.heap, .heap) := by
              by_contra hne
              rw [tableDestroy, htable, if_neg] at hdestroy
              · cases hdestroy
              · exact fun hall => hne (hall entry List.mem_cons_self)
            rw [htable, hheap] at hkeys
            cases hkeys
  constructor
  · intro n f hmeta
    rw [metaframe_writebackAfter, h.unwritten hnil, walk_none] at hmeta
    cases hmeta
  · intro offset version hversion
    rw [h.unmarked hnil] at hversion
    cases hversion

/-! ## Runs -/

theorem VersionsCarried.step {s t : World frames × Versions}
    {event : BufferEvent frames} (h : VersionsCarried s.1.manager s.2)
    (hspares : SparesVersions s event) (hcall : versionStep s event t) :
    Durable s event t ∧ VersionsCarried t.1.manager t.2 := by
  obtain ⟨⟨manager, file⟩, latest⟩ := s
  obtain ⟨⟨manager', file'⟩, latest'⟩ := t
  obtain ⟨hcall, hlatest⟩ := hcall
  obtain rfl : latest' = versionsAfter manager latest event := hlatest
  cases event with
  | pin activation index status frame =>
      exact ⟨trivial,
        VersionsCarried.pin h (buffPin_eq_some_iff.mp hcall) hspares⟩
  | allocFrame activation pageFrame status pair =>
      exact ⟨trivial,
        VersionsCarried.alloc h (allocOutcome_of_buffAllocFrame hcall) hspares⟩
  | write frame page =>
      obtain rfl : manager' = manager.setBuffer frame page := hcall.1
      exact ⟨trivial, VersionsCarried.write h page hspares.1 hspares.2⟩
  | mark frame status =>
      exact ⟨trivial,
        VersionsCarried.mark h (markOutcome_of_buffMarkPage hcall.1) hspares⟩
  | unpin frame status =>
      exact ⟨trivial,
        VersionsCarried.unpin h (unpinOutcome_of_buffUnpin hcall.1)⟩
  | freeFrame frame status =>
      exact ⟨trivial,
        VersionsCarried.free h (freeOutcome_of_buffFreeFrame hcall) hspares⟩
  | flushAll status =>
      have hloop := (flushAll_eq_some hcall).2
      obtain ⟨hputs, hpinned⟩ := hspares
      exact ⟨fun _ => ⟨hputs, VersionsCarried.allStored h hloop hputs hpinned⟩,
        VersionsCarried.flush h hloop⟩

theorem not_isDirty_buffCreate (store : Backing) (hframes : 0 < frames)
    (f : Fin frames) : ¬IsDirty (buffCreate store hframes) f := by
  rintro (hstate | hreaches)
  · rw [state_buffCreate] at hstate
    cases hstate
  · exact not_reaches_none hreaches

theorem versionsCarried_buffCreate (store : Backing) (hframes : 0 < frames) :
    VersionsCarried (buffCreate store hframes) fun _ => none := by
  have hclean := not_isDirty_buffCreate store hframes
  refine ⟨fun f hlisted => ?_, fun f hdirty => ?_, fun offset version h => ?_⟩
  · exact absurd (Or.inr hlisted) (hclean f)
  · exact absurd hdirty (hclean f)
  · cases h

/-- From the initial manager on, in every run whose calls spare the versions,
every flush that returns `STATUS_OK` has stored the latest version of every
page, with no write failing.  After any run at all, `buff_destroy` has done so
if it returns. -/
theorem updates_durable {store : Backing} {hframes : 0 < frames}
    {file : StoreFile} {events : List (BufferEvent frames)}
    {t : World frames × Versions} :
    (Run (Guarded versionStep SparesVersions)
        (startWorld store hframes file, fun _ => none) events t →
      Run (Ensuring versionStep Durable)
        (startWorld store hframes file, fun _ => none) events t) ∧
    (Run versionStep (startWorld store hframes file, fun _ => none) events t →
      ∀ status file',
        buffDestroy t.1.manager t.1.file = some (status, file') →
        PutsSucceed t.1.manager t.1.file ∧ AllStored t.2 file') := by
  constructor
  · intro hrun
    refine hrun.ensuring
      (I := fun s : World frames × Versions =>
        VersionsCarried s.1.manager s.2) ?_
      (versionsCarried_buffCreate store hframes)
    intro s event t h hspares hcall
    exact h.step hspares hcall
  · intro hrun status file' hcall
    have hstart : TableFirst (buffCreate store hframes) fun _ => none := by
      refine ⟨rfl, fun _ f => ?_, fun _ => rfl, fun _ _ => rfl⟩
      rw [state_buffCreate]
      decide
    have hend : TableFirst t.1.manager t.2 :=
      hrun.invariant
        (I := fun s : World frames × Versions => TableFirst s.1.manager s.2)
        (fun _ _ _ h hstep => h.step hstep) hstart
    exact hend.destroy hcall

/-- The only version in the small sessions. -/
def smallVersions : Versions :=
  Function.update (fun _ => none) (pageOffset 1) (some onesPage)

theorem smallWorld_pin_version :
    versionStep (smallWorld, fun _ => none) (.pin 0 1 .ok (some 0))
      (pinnedWorld 1, fun _ => none) :=
  ⟨smallWorld_pin (Nat.le_refl 1) (by decide), rfl⟩

theorem pinnedWorld_write_version :
    versionStep (pinnedWorld 1, fun _ => none) (.write 0 onesPage)
      (writtenWorld 1 onesPage, fun _ => none) :=
  ⟨pinnedWorld_write 1 onesPage, rfl⟩

theorem writtenWorld_mark_version :
    versionStep (writtenWorld 1 onesPage, fun _ => none) (.mark 0 .ok)
      (dirtyWorld 1 onesPage, smallVersions) := by
  have hoffset : (writtenWorld 1 onesPage).manager.offset 0 = pageOffset 1 :=
    indexToOffset_ofNat 1
  have hbuffer : (writtenWorld 1 onesPage).manager.buffer 0 = onesPage := by
    rw [writtenWorld, buffer_setBuffer, Function.update_self]
  refine ⟨writtenWorld_mark 1 onesPage, ?_⟩
  rw [versionsAfter, hoffset, hbuffer]
  rfl

/-- A page that is pinned and marked is not written by a flush. -/
theorem update_lost_by_flush :
    ∃ s t, Run versionStep (smallWorld, fun _ => none)
        [.pin 0 1 .ok (some 0), .write 0 onesPage, .mark 0 .ok] s ∧
      versionStep s (.flushAll .ok) t ∧ ¬Durable s (.flushAll .ok) t := by
  have hflush : versionStep (dirtyWorld 1 onesPage, smallVersions)
      (.flushAll .ok) (dirtyWorld 1 onesPage, smallVersions) :=
    ⟨buffFlushAll_of_empty _ rfl, rfl⟩
  refine ⟨_, _, .cons smallWorld_pin_version (.cons pinnedWorld_write_version
    (.cons writtenWorld_mark_version (.nil _))), hflush, fun hdurable => ?_⟩
  have hversion : smallVersions (pageOffset 1) = some onesPage := by
    rw [smallVersions, Function.update_self]
  have hstored := (hdurable rfl).2 (pageOffset 1) onesPage hversion
  have hfile : (dirtyWorld 1 onesPage).file.image = blankStore 2 := rfl
  rw [hfile, storedPage_pageOffset (by decide),
    pageAt_blankStore (Nat.le_refl 1) (by decide)] at hstored
  have hbyte : (0 : UInt8) = 1 := congrFun hstored ⟨0, by decide⟩
  exact absurd hbyte (by decide)

/-- A page that is unpinned before the flush is written. -/
theorem update_written_by_flush :
    ∃ t, Run (Ensuring versionStep Durable) (smallWorld, fun _ => none)
      [.pin 0 1 .ok (some 0), .write 0 onesPage, .mark 0 .ok, .unpin 0 .ok,
        .flushAll .ok] t := by
  have hdirty : HeadOnly 0 (dirtyWorld 1 onesPage).manager :=
    headOnly_dirtyWorld (Nat.le_refl 1) (by decide) onesPage
  have hlisted : HeadOnly 0 ((dirtyWorld 1 onesPage).manager.pushDirty 0) :=
    hdirty.pushDirty rfl
  obtain ⟨manager', file', hflush⟩ :=
    hlisted.exists_flush (reliable (blankStore 2))
  have hunpin : versionStep (dirtyWorld 1 onesPage, smallVersions)
      (.unpin 0 .ok) (⟨(dirtyWorld 1 onesPage).manager.pushDirty 0,
        reliable (blankStore 2)⟩, smallVersions) :=
    ⟨dirtyWorld_unpin 1 onesPage, rfl⟩
  have hflushed : versionStep (⟨(dirtyWorld 1 onesPage).manager.pushDirty 0,
        reliable (blankStore 2)⟩, smallVersions) (.flushAll .ok)
      (⟨manager', file'⟩, smallVersions) := ⟨hflush, rfl⟩
  have hputs : PutsSucceed ((dirtyWorld 1 onesPage).manager.pushDirty 0)
      (reliable (blankStore 2)) := by
    refine (hlisted.writes_iff (P := fun cursor f =>
      (cursor.put f).1 = .ok)).mpr fun _ => ?_
    exact congrArg Prod.fst (putPage_page ⟨3⟩ _ (Nat.le_refl 1) (by decide)
      (indexToOffset_ofNat 1))
  have hspares_pin : SparesVersions (smallWorld, fun _ => none)
      (.pin 0 1 .ok (some 0)) := by
    refine Or.inr (Or.inr fun f _ hf => ?_)
    rcases hf with hstate | hreaches
    · exact absurd ((state_buffCreate ..).symm.trans hstate) (by decide)
    · exact absurd hreaches not_reaches_none
  have hspares_write : SparesVersions (pinnedWorld 1, fun _ => none)
      (.write 0 onesPage) := by
    refine ⟨not_reaches_none, fun hstate => ?_⟩
    rw [pinnedWorld, state_claim, Function.update_self] at hstate
    cases hstate
  have hspares_mark : SparesVersions (writtenWorld 1 onesPage, fun _ => none)
      (.mark 0 .ok) := by
    intro _ g hg hdirty'
    rcases hdirty' with hstate | hreaches
    · have hstate' : (dirtyWorld 1 onesPage).manager.state g =
          .pinnedDirty := by
        rw [dirtyWorld, state_setState, Function.update_of_ne hg]
        exact hstate
      exact absurd (hdirty.eq_head (Or.inr hstate')) hg
    · exact absurd hreaches not_reaches_none
  have hspares_flush : SparesVersions
      (⟨(dirtyWorld 1 onesPage).manager.pushDirty 0,
        reliable (blankStore 2)⟩, smallVersions) (.flushAll .ok) := by
    refine ⟨hputs, fun f hstate => ?_⟩
    obtain rfl := hlisted.eq_head (Or.inr hstate)
    have hnone := hlisted.writeback_of_pinned (Or.inr hstate)
    cases hnone
  exact ⟨_, updates_durable.1 (.cons ⟨hspares_pin, smallWorld_pin_version⟩
    (.cons ⟨hspares_write, pinnedWorld_write_version⟩
      (.cons ⟨hspares_mark, writtenWorld_mark_version⟩
        (.cons ⟨trivial, hunpin⟩ (.cons ⟨hspares_flush, hflushed⟩
          (.nil _))))))⟩

end NickDB

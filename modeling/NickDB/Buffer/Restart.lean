import NickDB.Buffer.Coherence
import NickDB.Buffer.Durability

/-!
# A new manager over a flushed store

The versions that a flush has stored outlive the manager: a second manager over
the same file finds them where it has no later version of its own.  Its pages
in the file change only when it writes back a frame, and such a frame has been
marked, so a page without a version in this session is still as the session
before has left it.
-/

namespace NickDB

open Linked Runs BufferManager

variable {frames : ℕ}

/-- The bytes of a page after two sessions: the version of the second, or of
the first, or the bytes of the file in between. -/
def contentsAcross (first second : Versions) (between : ByteFile UInt8)
    (index : PageIndex) : Page :=
  (second (indexToOffset index)).getD (contents first between index)

/-- A pin of the second session that succeeds returns a pinned frame with these
bytes. -/
def CoherentAcross (first : Versions) (between : ByteFile UInt8)
    (_ : World frames × Versions) (event : ClientEvent frames)
    (t : World frames × Versions) : Prop :=
  match event with
  | .pin _ index status frame => status = .ok →
      ∃ f, frame = some f ∧ (t.1.manager.state f).IsPinned ∧
        t.1.manager.index f = index ∧
        t.1.manager.buffer f = contentsAcross first t.2 between index
  | _ => True

/-- Pages without a version are as they were, and the frame that is to be
written back has a version. -/
structure KeepsUnmarked (between : ByteFile UInt8) (head : Fin frames)
    (manager : BufferManager frames) (file : StoreFile) (latest : Versions) :
    Prop where
  coheres : Coheres head manager file latest
  marked : manager.state head = .pinnedDirty ∨
    manager.writeback = some head → latest (manager.offset head) ≠ none
  kept : ∀ index, latest (indexToOffset index) = none →
    storedPage file.image (indexToOffset index) =
      storedPage between (indexToOffset index)

variable {head : Fin frames} {manager manager' : BufferManager frames}
  {file file' : StoreFile} {latest : Versions} {between : ByteFile UInt8}
  {index index' : PageIndex} {store : Option Backing}

/-- A page that is written leaves the other pages alone. -/
theorem storedPage_putPage (h : WholeFile file) (src : Page)
    (hne : indexToOffset index' ≠ indexToOffset index) :
    storedPage (putPage src store file index).2.image (indexToOffset index') =
      storedPage file.image (indexToOffset index') := by
  by_cases hok : (putPage src store file index).1 = .ok
  · obtain ⟨hzero, hneg, himage⟩ := putPage_ok hok
    rw [himage]
    exact storedPage_write_of_ne src hzero hneg hne
  · have hsame : (putPage src store file index).2 = file := by
      rw [h.eq_reliable] at hok ⊢
      cases store with
      | none => rw [putPage_no_store]
      | some store =>
          rcases indexToOffset_cases index with
            hzero | hneg | ⟨k, hpos, hk, hloc⟩
          · rw [putPage_zero store src _ hzero]
          · rw [putPage_neg store src _ hneg]
          · rw [putPage_page store src hpos hk hloc] at hok
            exact absurd rfl hok
    rw [hsame]

/-! ## One lemma for each call -/

theorem KeepsUnmarked.pin (h : KeepsUnmarked between head manager file latest)
    {activation : ℕ} {status : Status} {frame : Option (Fin frames)}
    (hcall : PinOutcome activation manager file index status frame manager'
      file') (hfinds : Finds latest index status frame manager' file') :
    KeepsUnmarked between head manager' file' latest := by
  have hcoheres := h.coheres.pin hcall hfinds
  cases hcall with
  | metaPage hindex => exact h
  | noFreeFrames hindex hfree => exact h
  | hit hindex hfree hknown => exact h
  | @unread f status page file' hindex hfree hnew hget hstatus =>
      obtain ⟨rfl, -⟩ := h.coheres.whole.getPage hget
      exact ⟨hcoheres, h.marked, h.kept⟩
  | @taken f next page file' hindex hfree hnew hget hnext =>
      obtain ⟨rfl, -⟩ := h.coheres.whole.getPage hget
      obtain rfl := Option.some.inj
        (h.coheres.headOnly.freelist.symm.trans hfree)
      refine ⟨hcoheres, ?_, h.kept⟩
      -- a frame is only taken while nothing is to be written back
      have hclean := h.coheres.headOnly.writeback_of_link hnext
      rintro (hstate | hwriteback)
      · rw [state_claim, Function.update_self] at hstate
        cases hstate
      · have hwriteback' : manager.writeback = some head := hwriteback
        rw [hclean] at hwriteback'
        cases hwriteback'

/-- Only a page that is freed loses its version. -/
theorem eq_none_of_versionsAfter {event : BufferEvent frames}
    {offset : ByteOffset}
    (hevent : ∀ frame status, event ≠ .freeFrame frame status)
    (hnone : versionsAfter manager latest event offset = none) :
    latest offset = none := by
  have hupdate : ∀ {at_ : ByteOffset} {page : Page},
      Function.update latest at_ (some page) offset = none →
        latest offset = none := by
    intro at_ page h
    rw [Function.update_apply] at h
    split at h
    · cases h
    · exact h
  unfold versionsAfter at hnone
  split at hnone
  next => exact hupdate hnone
  next =>
    split at hnone
    next => exact hupdate hnone
    next => exact hnone
  next frame => exact absurd rfl (hevent (some frame) .ok)
  next => exact hnone

theorem KeepsUnmarked.modify
    (h : KeepsUnmarked between head manager file latest) {f : Fin frames}
    {page : Page} {status : Status}
    (hcall : MarkOutcome (manager.setBuffer f page) f status manager') :
    KeepsUnmarked between head manager' file
      (versionsAfter (manager.setBuffer f page)
        (versionsAfter manager latest (.write f page)) (.mark f status)) := by
  have hold : ∀ offset, versionsAfter (manager.setBuffer f page)
      (versionsAfter manager latest (.write f page)) (.mark f status) offset =
        none → latest offset = none := fun offset hnone =>
    eq_none_of_versionsAfter (by simp)
      (eq_none_of_versionsAfter (by simp) hnone)
  refine ⟨h.coheres.modify hcall, fun hmarked hnone => ?_,
    fun index hnone => h.kept index (hold _ hnone)⟩
  have hversion := hold _ hnone
  cases hcall with
  | clean hstate =>
      obtain rfl := h.coheres.headOnly.eq_head (Or.inl hstate)
      -- the mark has made a version of this very page
      have hmark : Function.update
          (versionsAfter manager latest (.write f page)) (manager.offset f)
          (some ((manager.setBuffer f page).buffer f)) (manager.offset f) =
            none := by
        rw [BufferManager.offset, index_setState] at hnone
        exact hnone
      rw [Function.update_self] at hmark
      cases hmark
  | dirty hstate =>
      have hmark : (manager.state head) = .pinnedDirty ∨
          manager.writeback = some head := hmarked
      exact h.marked hmark hversion
  | refused hstate =>
      have hmark : (manager.state head) = .pinnedDirty ∨
          manager.writeback = some head := hmarked
      exact h.marked hmark hversion

theorem KeepsUnmarked.unpin
    (h : KeepsUnmarked between head manager file latest) {f : Fin frames}
    {status : Status} (hcall : UnpinOutcome manager f status manager') :
    KeepsUnmarked between head manager' file latest := by
  refine ⟨h.coheres.unpin hcall, ?_, h.kept⟩
  cases hcall with
  | dirty removed hstate hremove =>
      obtain rfl := h.coheres.headOnly.eq_head (Or.inr hstate)
      have hoffset : ((manager.pushDirty f).setTable removed.2).offset f =
          manager.offset f := by
        rw [BufferManager.offset, index_setTable, index_pushDirty]
        rfl
      rw [hoffset]
      exact fun _ => h.marked (Or.inl hstate)
  | clean removed hstate hremove =>
      obtain rfl := h.coheres.headOnly.eq_head (Or.inl hstate)
      have hclean := h.coheres.headOnly.writeback_of_pinned (Or.inl hstate)
      rintro (hdirty | hwriteback)
      · rw [state_setTable, state_pushFree, Function.update_self] at hdirty
        cases hdirty
      · have hwriteback' : manager.writeback = some f := hwriteback
        rw [hclean] at hwriteback'
        cases hwriteback'
  | refused hstate => exact h.marked

/-- What a flush writes has a version. -/
theorem KeepsUnmarked.flush
    (h : KeepsUnmarked between head manager file latest)
    (hloop : writebackLoop manager file = some (manager', file')) :
    KeepsUnmarked between head manager' file' latest := by
  have hsame := same_of_loop manager file hloop
  have hoffset : manager'.offset head = manager.offset head :=
    congrArg indexToOffset (congrFun hsame.index head)
  refine ⟨h.coheres.flush hloop, ?_, ?_⟩
  · rw [hoffset, hsame.writeback]
    rintro (hstate | hwriteback)
    · rcases state_of_loop manager file hloop head with ⟨-, hnew⟩ | ⟨-, hkept⟩
      · rw [hnew] at hstate
        cases hstate
      · exact h.marked (Or.inl (hkept.symm.trans hstate))
    · exact h.marked (Or.inr hwriteback)
  · intro index hnone
    rcases h.coheres.headOnly.loop hloop with ⟨-, rfl, rfl⟩ | ⟨hwriteback, rfl⟩
    · exact h.kept index hnone
    · have hne : indexToOffset index ≠ indexToOffset (manager.index head) := by
        intro heq
        rw [heq] at hnone
        exact h.marked (Or.inr hwriteback) hnone
      rw [storedPage_putPage h.coheres.whole _ hne]
      exact h.kept index hnone

/-! ## Runs -/

/-- A page without a version is as the session before has left it. -/
theorem KeepsUnmarked.contents_eq {first : Versions}
    (h : KeepsUnmarked between head manager file latest)
    (hstored : ∀ offset version, first offset = some version →
      storedPage between offset = version) (index : PageIndex) :
    contents latest file.image index =
      contentsAcross first latest between index := by
  unfold contentsAcross contents
  cases hversion : latest (indexToOffset index) with
  | some version => rfl
  | none =>
      rw [Option.getD_none, Option.getD_none, h.kept index hversion]
      cases hfirst : first (indexToOffset index) with
      | none => rfl
      | some version => exact hstored _ version hfirst

theorem KeepsUnmarked.step {first : Versions}
    {s t : World frames × Versions} {event : ClientEvent frames}
    (h : KeepsUnmarked between head s.1.manager s.1.file s.2)
    (hstored : ∀ offset version, first offset = some version →
      storedPage between offset = version)
    (hreads : ReadsLatest s event) (hcall : modifyStep s event t) :
    CoherentAcross first between s event t ∧
      KeepsUnmarked between head t.1.manager t.1.file t.2 := by
  have hcoherent := (coherent_iff h.coheres hcall).mpr hreads
  obtain ⟨⟨manager, file⟩, latest⟩ := s
  obtain ⟨⟨manager', file'⟩, latest'⟩ := t
  cases event with
  | pin activation index status frame =>
      obtain ⟨hpin, hlatest⟩ := hcall
      obtain rfl : latest' = latest := hlatest
      have hnext : KeepsUnmarked between head manager' file' latest' :=
        h.pin (buffPin_eq_some_iff.mp hpin) hcoherent
      refine ⟨fun hok => ?_, hnext⟩
      obtain ⟨f, hf, hpinned, hindex, hbytes⟩ := hcoherent hok
      exact ⟨f, hf, hpinned, hindex,
        hbytes.trans (hnext.contents_eq hstored index)⟩
  | modify frame page status =>
      obtain ⟨⟨⟨manager₁, file₁⟩, latest₁⟩, ⟨⟨hwrite, hfile⟩, hlatest⟩,
        ⟨hmark, hfile'⟩, hlatest'⟩ := hcall
      obtain rfl : manager₁ = manager.setBuffer frame page := hwrite
      obtain rfl : file₁ = file := hfile
      obtain rfl : file' = file₁ := hfile'
      obtain rfl : latest₁ = _ := hlatest
      obtain rfl : latest' = _ := hlatest'
      exact ⟨trivial,
        KeepsUnmarked.modify h (markOutcome_of_buffMarkPage hmark)⟩
  | unpin frame status =>
      obtain ⟨⟨hunpin, hfile⟩, hlatest⟩ := hcall
      obtain rfl : file' = file := hfile
      obtain rfl : latest' = latest := hlatest
      exact ⟨trivial, KeepsUnmarked.unpin h (unpinOutcome_of_buffUnpin hunpin)⟩
  | flushAll status =>
      obtain ⟨hflush, hlatest⟩ := hcall
      obtain rfl : latest' = latest := hlatest
      exact ⟨trivial, KeepsUnmarked.flush h (flushAll_eq_some hflush).2⟩

/-- After a session that ends with a flush the latest versions are in the
file. -/
theorem allStored_of_flushed {store : Backing} {hframes : 0 < frames}
    {file : StoreFile} {events : List (BufferEvent frames)}
    {t : World frames × Versions}
    (hrun : Run (Guarded versionStep SparesVersions)
      (startWorld store hframes file, fun _ => none)
      (events ++ [.flushAll .ok]) t) : AllStored t.2 t.1.file := by
  obtain ⟨s, hevents, hlast⟩ := run_append_iff.mp hrun
  have hcarried : VersionsCarried s.1.manager s.2 :=
    hevents.invariant
      (I := fun s : World frames × Versions => VersionsCarried s.1.manager s.2)
      (fun _ _ _ h hstep => (h.step hstep.1 hstep.2).2)
      (versionsCarried_buffCreate store hframes)
  obtain ⟨u, ⟨hspares, hflush⟩, hend⟩ := run_cons_iff.mp hlast
  obtain rfl := run_nil_iff.mp hend
  exact ((hcarried.step hspares hflush).1 rfl).2

theorem keepsUnmarked_buffCreate (store : Backing) (hframes : 0 < frames)
    (hwhole : pageSize ∣ between.length) :
    KeepsUnmarked between ⟨0, hframes⟩ (buffCreate store hframes)
      (reliable between) fun _ => none where
  coheres := by
    refine ⟨headOnly_buffCreate store hframes, ⟨rfl, hwhole⟩,
      fun hpinned => ?_⟩
    rw [state_buffCreate] at hpinned
    exact absurd hpinned (by decide)
  marked := by
    rintro (hstate | hwriteback)
    · rw [state_buffCreate] at hstate
      cases hstate
    · cases hwriteback
  kept := fun _ _ => rfl

/-- A session whose calls spare the versions ends with a flush, and a new
manager is made over the file that it leaves.  As long as the pins of the
second session do not read what is not stored yet, each pin that succeeds
returns the last version of its page from either session, or what the file had
in between. -/
theorem pins_coherent_across {frames' : ℕ} {store store' : Backing}
    {hframes : 0 < frames} {hframes' : 0 < frames'} {file : StoreFile}
    {events : List (BufferEvent frames)} {t : World frames × Versions}
    {events' : List (ClientEvent frames')} {u : World frames' × Versions}
    (hfirst : Run (Guarded versionStep SparesVersions)
      (startWorld store hframes file, fun _ => none)
      (events ++ [.flushAll .ok]) t)
    (hwhole : pageSize ∣ t.1.file.image.length)
    (hsecond : Run (Guarded modifyStep ReadsLatest)
      (startWorld store' hframes' (reliable t.1.file.image), fun _ => none)
      events' u) :
    Run (Ensuring modifyStep (CoherentAcross t.2 t.1.file.image))
      (startWorld store' hframes' (reliable t.1.file.image), fun _ => none)
      events' u := by
  have hstored := allStored_of_flushed hfirst
  refine hsecond.ensuring
    (I := fun s : World frames' × Versions =>
      KeepsUnmarked t.1.file.image ⟨0, hframes'⟩ s.1.manager s.1.file s.2) ?_
    (keepsUnmarked_buffCreate store' hframes' hwhole)
  intro s event s' h hreads hcall
  exact h.step hstored hreads hcall

/-! ## A version that outlives its manager -/

theorem HeadOnly.eq_head_of_dirty (h : HeadOnly head manager) {f : Fin frames}
    (hdirty : IsDirty manager f) : f = head := by
  rcases hdirty with hstate | hreaches
  · exact h.eq_head (Or.inr hstate)
  · rcases h.writeback with hnone | ⟨hhead, hnull, -⟩
    · rw [hnone] at hreaches
      exact absurd hreaches not_reaches_none
    · rw [hhead, reaches_some_iff, hnull] at hreaches
      exact hreaches.resolve_right not_reaches_none

/-- The blank store after page 1 has been written. -/
def onesStore : ByteFile UInt8 :=
  writePage (blankStore 2) 1 onesPage

/-- A client writes page 1, and the flush at the end stores it. -/
theorem smallSession_flushed : ∃ manager',
    Run (Guarded versionStep SparesVersions) (smallWorld, fun _ => none)
      ([.pin 0 1 .ok (some 0), .write 0 onesPage, .mark 0 .ok, .unpin 0 .ok] ++
        [.flushAll .ok])
      (⟨manager', reliable onesStore⟩, smallVersions) := by
  have hpinned : HeadOnly 0 (pinnedWorld 1).manager :=
    (headOnly_buffCreate ⟨3⟩ (Nat.succ_pos 1)).pin
      (smallWorld_pinOutcome (Nat.le_refl 1) (by decide))
  have hwritten : HeadOnly 0 (writtenWorld 1 onesPage).manager :=
    hpinned.congr rfl rfl rfl fun _ h => h
  have hlisted : HeadOnly 0 ((dirtyWorld 1 onesPage).manager.pushDirty 0) :=
    (headOnly_dirtyWorld (Nat.le_refl 1) (by decide) onesPage).pushDirty rfl
  have hput : putPage onesPage (some ⟨3⟩) (reliable (blankStore 2))
      (Int64.ofNat 1) = (.ok, reliable onesStore) :=
    putPage_page ⟨3⟩ _ (Nat.le_refl 1) (by decide) (indexToOffset_ofNat 1)
  obtain ⟨manager', file', hflush⟩ :=
    hlisted.exists_flush (reliable (blankStore 2))
  have hfile : file' = reliable onesStore := by
    rcases hlisted.loop (flushAll_eq_some hflush).2 with
      ⟨hnone, -⟩ | ⟨-, hstored⟩
    · cases hnone
    · exact hstored.trans (congrArg Prod.snd hput)
  subst hfile
  have hunpin : versionStep (dirtyWorld 1 onesPage, smallVersions)
      (.unpin 0 .ok) (⟨(dirtyWorld 1 onesPage).manager.pushDirty 0,
        reliable (blankStore 2)⟩, smallVersions) :=
    ⟨dirtyWorld_unpin 1 onesPage, rfl⟩
  have hflushed : versionStep (⟨(dirtyWorld 1 onesPage).manager.pushDirty 0,
        reliable (blankStore 2)⟩, smallVersions) (.flushAll .ok)
      (⟨manager', reliable onesStore⟩, smallVersions) := ⟨hflush, rfl⟩
  refine ⟨manager', .cons ⟨?_, smallWorld_pin_version⟩
    (.cons ⟨?_, pinnedWorld_write_version⟩
      (.cons ⟨?_, writtenWorld_mark_version⟩
        (.cons ⟨trivial, hunpin⟩ (.cons ⟨⟨?_, ?_⟩, hflushed⟩ (.nil _)))))⟩
  · exact Or.inr (Or.inr fun f _ hf =>
      absurd hf (not_isDirty_buffCreate _ _ f))
  · refine ⟨not_reaches_none, fun hstate => ?_⟩
    rw [pinnedWorld, state_claim, Function.update_self] at hstate
    cases hstate
  · intro _ g hg hdirty
    exact absurd (hwritten.eq_head_of_dirty hdirty) hg
  · exact (hlisted.writes_iff (P := fun cursor f =>
      (cursor.put f).1 = .ok)).mpr fun _ => congrArg Prod.fst hput
  · intro f hstate
    obtain rfl := hlisted.eq_head (Or.inr hstate)
    have hnone := hlisted.writeback_of_pinned (Or.inr hstate)
    cases hnone

/-- The first pin of the second session reads the bytes that the first session
wrote. -/
theorem pin_finds_earlier_version : ∃ manager u,
    Run (Guarded versionStep SparesVersions) (smallWorld, fun _ => none)
      ([.pin 0 1 .ok (some 0), .write 0 onesPage, .mark 0 .ok, .unpin 0 .ok] ++
        [.flushAll .ok])
      (⟨manager, reliable onesStore⟩, smallVersions) ∧
    Run (Ensuring modifyStep (CoherentAcross smallVersions onesStore))
      (startWorld ⟨3⟩ (Nat.succ_pos 1) (reliable onesStore), fun _ => none)
      [.pin 0 1 .ok (some 0)] u := by
  obtain ⟨manager, hfirst⟩ := smallSession_flushed
  have hindex : Int64.ofNat 1 ≠ metadataIndex := by decide
  have hin : InFile onesStore 1 := by
    rw [InFile, onesStore, length_writePage]
    exact le_max_right ..
  have hget : getPage blankPage (some ⟨3⟩) (reliable onesStore)
      (Int64.ofNat 1) = (.ok, onesPage, reliable onesStore) := by
    rw [getPage_page ⟨3⟩ _ (Nat.le_refl 1) (by decide) (indexToOffset_ofNat 1)
      hin, onesStore, pageAt_writePage_self]
  have hpin : modifyStep
      (startWorld ⟨3⟩ (Nat.succ_pos 1) (reliable onesStore), fun _ => none)
      (.pin 0 1 .ok (some 0)) (⟨_, reliable onesStore⟩, fun _ => none) :=
    ⟨buffPin_eq_some_iff.mpr (smallWorld_takes hindex hget), rfl⟩
  have hreads : ReadsLatest
      (startWorld ⟨3⟩ (Nat.succ_pos 1) (reliable onesStore), fun _ => none)
      (.pin 0 1 .ok (some 0)) := by
    refine Or.inr fun f _ => ?_
    split
    next hknown => exact absurd hknown Bool.false_ne_true
    next =>
      intro _ _ version hversion
      cases hversion
  have hwhole : pageSize ∣ onesStore.length := by
    rw [onesStore, length_writePage, length_blankStore]
    decide
  exact ⟨manager, _, hfirst, pins_coherent_across hfirst hwhole
    (.cons ⟨hreads, hpin⟩ (.nil _))⟩

end NickDB

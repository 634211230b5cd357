import NickDB.Buffer.Session

/-!
# Termination of the write-back loop

The loop of `buff_flush_all` and `buff_destroy` follows the links of the
write-back list, so it stops exactly when they end.  A frame that is pushed
onto the write-back list a second time, or that is pushed onto the free list
while it is still on the write-back list, may close a cycle: `buff_free_frame`
pushes a frame whatever list it is on.  This module says exactly which pushes
keep the loop finite.
-/

namespace NickDB

open Linked Runs BufferManager

variable {frames : ℕ}

/-- The loop stops, and has visited each frame at most once by then. -/
def LoopStops (manager : BufferManager frames) (file : StoreFile) : Prop :=
  (∃ visited : List (Fin frames), visited.Nodup ∧
    ∀ n, (writebackAfter manager file n).metaframe = visited[n]?) ∧
  (writebackLoop manager file).isSome

/-- Pushing the frame onto the free list keeps the links of the write-back list
ending: it is not on that list, or the free list ends and does not lead to
it. -/
def PushesOff (manager : BufferManager frames) (f : Fin frames) : Prop :=
  Reaches manager.link manager.writeback f →
    ¬Reaches manager.link manager.freelist f ∧
      Ends manager.link manager.freelist

/-- A frame that is unpinned or freed is not on the list it goes to, and if it
is on the write-back list while it goes to the free list, the free list ends
and does not lead to it. -/
def PushesOnce (s : World frames) : BufferEvent frames → Prop
  | .unpin f _ =>
      (s.manager.state f = .pinnedDirty →
        ¬Reaches s.manager.link s.manager.writeback f) ∧
      (s.manager.state f = .pinned → PushesOff s.manager f)
  | .freeFrame frame _ => ∀ f ∈ frame, PushesOff s.manager f
  | _ => True

variable {manager manager' : BufferManager frames} {file file' : StoreFile}

/-! ## Loops and links -/

/-- The loop stops exactly when the links of the write-back list end, on
whatever file it runs. -/
theorem loopStops_iff : LoopStops manager file ↔
    Ends manager.link manager.writeback := by
  constructor
  · rintro ⟨-, hloop⟩
    obtain ⟨⟨manager', file'⟩, hresult⟩ := Option.isSome_iff_exists.mp hloop
    exact ((writebackLoop_eq_some_iff ..).mp hresult).1
  · rintro ⟨xs, hxs⟩
    constructor
    · refine ⟨xs, hxs.nodup, fun n => ?_⟩
      rw [metaframe_writebackAfter, hxs.walk_eq]
    · apply Option.isSome_of_eq_some
      exact (writebackLoop_eq_some_iff ..).mpr ⟨⟨xs, hxs⟩, rfl, rfl⟩

theorem ends_pushDirty_iff (manager : BufferManager frames) (f : Fin frames)
    (h : Ends manager.link manager.writeback) :
    Ends (manager.pushDirty f).link (manager.pushDirty f).writeback ↔
      ¬Reaches manager.link manager.writeback f := by
  have hlink : (manager.pushDirty f).link f = manager.writeback := by
    rw [link_pushDirty, Function.update_self]
  have hsame : ∀ g, g ≠ f →
      (manager.pushDirty f).link g = manager.link g := by
    intro g hg
    rw [link_pushDirty, Function.update_of_ne hg]
  rw [writeback_pushDirty, ends_push_iff hlink hsame]
  exact and_iff_left h

theorem ends_pushFree_iff (manager : BufferManager frames) (f : Fin frames)
    (h : Ends manager.link manager.writeback) :
    Ends (manager.pushFree f).link (manager.pushFree f).writeback ↔
      PushesOff manager f := by
  have hlink : (manager.pushFree f).link f = manager.freelist := by
    rw [link_pushFree, Function.update_self]
  have hsame : ∀ g, g ≠ f →
      (manager.pushFree f).link g = manager.link g := by
    intro g hg
    rw [link_pushFree, Function.update_of_ne hg]
  rw [writeback_pushFree, PushesOff]
  by_cases hf : Reaches manager.link manager.writeback f
  · -- the way to the frame is as before, and goes on along the free list
    rw [(hf.edit hsame).ends_iff, ends_push_iff hlink hsame]
    exact ⟨fun hends _ => hends, fun hends => hends hf⟩
  · rw [ends_edit_iff hf hsame]
    exact iff_of_true h fun hreaches => absurd hreaches hf

/-! ## One lemma for each call -/

/-- A pin may cut a frame out of the write-back list, but closes no cycle. -/
theorem PinOutcome.ends {activation : ℕ} {index : PageIndex}
    {status : Status} {frame : Option (Fin frames)}
    (hcall : PinOutcome activation manager file index status frame manager'
      file') (h : Ends manager.link manager.writeback) :
    Ends manager'.link manager'.writeback := by
  cases hcall with
  | metaPage hindex => exact h
  | noFreeFrames hindex hfree => exact h
  | hit hindex hfree hknown => exact h
  | unread hindex hfree hnew hget hstatus => exact h
  | @taken f next page file' hindex hfree hnew hget hnext =>
      apply h.skip hnext
      · rw [link_claim, Function.update_self]
      · intro g hg
        rw [link_claim, Function.update_of_ne hg]
        rfl

theorem AllocOutcome.ends {activation : ℕ} {pageFrame : Bool}
    {status : Status} {pair : Option (Fin frames × PageIndex)}
    (hcall : AllocOutcome activation manager file pageFrame status pair
      manager' file') (h : Ends manager.link manager.writeback) :
    Ends manager'.link manager'.writeback :=
  hcall.keeps (P := fun manager => Ends manager.link manager.writeback) h
    fun hpin => hpin.ends h

theorem MarkOutcome.ends {f : Fin frames} {status : Status}
    (hcall : MarkOutcome manager f status manager')
    (h : Ends manager.link manager.writeback) :
    Ends manager'.link manager'.writeback := by
  cases hcall with
  | clean hstate =>
      rw [link_setState, writeback_setState]
      exact h
  | dirty hstate => exact h
  | refused hstate => exact h

theorem UnpinOutcome.ends_iff {f : Fin frames} {status : Status}
    (hcall : UnpinOutcome manager f status manager')
    (h : Ends manager.link manager.writeback) :
    Ends manager'.link manager'.writeback ↔
      (manager.state f = .pinnedDirty →
        ¬Reaches manager.link manager.writeback f) ∧
      (manager.state f = .pinned → PushesOff manager f) := by
  cases hcall with
  | dirty removed hstate hremove =>
      rw [link_setTable, writeback_setTable, ends_pushDirty_iff manager f h]
      simp [hstate]
  | clean removed hstate hremove =>
      rw [link_setTable, writeback_setTable, ends_pushFree_iff manager f h]
      simp [hstate]
  | refused hstate =>
      refine iff_of_true h ⟨fun hdirty => ?_, fun hclean => ?_⟩
      · exact absurd (Or.inr hdirty) hstate
      · exact absurd (Or.inl hclean) hstate

theorem FreeOutcome.ends_iff {frame : Option (Fin frames)} {status : Status}
    (hcall : FreeOutcome manager file frame status manager' file')
    (h : Ends manager.link manager.writeback) :
    Ends manager'.link manager'.writeback ↔
      ∀ f ∈ frame, PushesOff manager f := by
  cases hcall with
  | noFrame => exact iff_of_true h nofun
  | @freed f status file' removed hfree hremove =>
      rw [link_setTable, writeback_setTable, ends_pushFree_iff manager f h]
      simp

theorem ends_of_loop (hloop : writebackLoop manager file =
      some (manager', file')) (h : Ends manager.link manager.writeback) :
    Ends manager'.link manager'.writeback := by
  have hsame := same_of_loop manager file hloop
  rwa [hsame.link, hsame.writeback]

/-- A call keeps the links ending exactly when it pushes no frame that is
listed. -/
theorem ends_step_iff {s t : World frames} {event : BufferEvent frames}
    (h : Ends s.manager.link s.manager.writeback)
    (hcall : bufferStep s event t) :
    Ends t.manager.link t.manager.writeback ↔ PushesOnce s event := by
  obtain ⟨manager, file⟩ := s
  obtain ⟨manager', file'⟩ := t
  cases event with
  | pin activation index status frame =>
      exact iff_of_true ((buffPin_eq_some_iff.mp hcall).ends h) trivial
  | allocFrame activation pageFrame status pair =>
      exact iff_of_true ((allocOutcome_of_buffAllocFrame hcall).ends h)
        trivial
  | write frame page =>
      obtain ⟨rfl, -⟩ := hcall
      exact iff_of_true h trivial
  | mark frame status =>
      exact iff_of_true ((markOutcome_of_buffMarkPage hcall.1).ends h) trivial
  | unpin frame status =>
      exact (unpinOutcome_of_buffUnpin hcall.1).ends_iff h
  | freeFrame frame status =>
      exact (freeOutcome_of_buffFreeFrame hcall).ends_iff h
  | flushAll status =>
      exact iff_of_true (ends_of_loop (flushAll_eq_some hcall).2 h) trivial

/-! ## Runs -/

/-- From the initial manager on, a flush or a destruction would end in every
state of a run exactly when the run pushes no frame that is listed. -/
theorem loops_stop_iff {store : Backing} {hframes : 0 < frames}
    {file : StoreFile} {events : List (BufferEvent frames)}
    {t : World frames} :
    (∀ later, LoopStops (startWorld store hframes file).manager later) ∧
      (Run (Ensuring bufferStep fun _ _ u => ∀ later,
          LoopStops u.manager later)
          (startWorld store hframes file) events t ↔
        Run (Guarded bufferStep PushesOnce)
          (startWorld store hframes file) events t) := by
  have hstart : Ends (startWorld store hframes file).manager.link
      (startWorld store hframes file).manager.writeback := ends_none _
  have hstops : ∀ manager : BufferManager frames,
      (∀ later, LoopStops manager later) ↔
        Ends manager.link manager.writeback := by
    intro manager
    simp only [loopStops_iff]
    exact ⟨fun hall => hall (reliable ByteFile.empty), fun h _ => h⟩
  refine ⟨(hstops _).mpr hstart, Run.ensuring_iff_guarded
    (I := fun s => Ends s.manager.link s.manager.writeback) ?_ ?_ hstart⟩
  · intro s event t h hcall
    rw [hstops]
    exact ends_step_iff h hcall
  · intro s event t _ _ h'
    exact (hstops _).mp h'

/-- Frame 0 is freed while it is on the write-back list.  It was still the head
of the free list, so it is linked to itself, and a flush would write it for
ever. -/
theorem loop_endless :
    ∃ t, Run bufferStep smallWorld
        [.pin 0 1 .ok (some 0), .mark 0 .ok, .unpin 0 .ok,
          .freeFrame (some 0) .ok] t ∧
      buffFlushAll t.manager t.file = none ∧
      buffDestroy t.manager t.file = none ∧
      ¬LoopStops t.manager t.file := by
  obtain ⟨image, hfree, -⟩ :=
    (storeAt_blankStore (n := 2) (by decide)).free_page (k := 1) ⟨3⟩
      (Nat.le_refl 1) (by decide)
  have hcycle : ¬Ends (listedWorld.manager.pushFree 0).link
      (listedWorld.manager.pushFree 0).writeback := by
    have hlisted : Ends listedWorld.manager.link
        listedWorld.manager.writeback := ⟨[0], rfl, rfl⟩
    rw [ends_pushFree_iff _ _ hlisted]
    intro hoff
    exact (hoff ⟨[], rfl⟩).1 ⟨[], rfl⟩
  have hendless : writebackLoop (listedWorld.manager.pushFree 0)
      (reliable image) = none := by
    rw [← Option.not_isSome_iff_eq_none]
    intro hloop
    obtain ⟨⟨manager', file'⟩, hresult⟩ := Option.isSome_iff_exists.mp hloop
    exact hcycle ((writebackLoop_eq_some_iff ..).mp hresult).1
  refine ⟨⟨listedWorld.manager.pushFree 0, reliable image⟩,
    .cons (smallWorld_pin (Nat.le_refl 1) (by decide)) (.cons pinnedWorld_mark
      (.cons markedWorld_unpin (.cons (listedWorld_free hfree) (.nil _)))),
    ?_, ?_, ?_⟩
  · rw [buffFlushAll, hendless]
    rfl
  · rw [buffDestroy, hendless]
  · rwa [loopStops_iff]

/-- A page that is marked and unpinned. -/
theorem loops_stop_after_unpin :
    ∃ t, Run (Ensuring bufferStep fun _ _ u => ∀ later,
        LoopStops u.manager later) smallWorld
      [.pin 0 1 .ok (some 0), .mark 0 .ok, .unpin 0 .ok] t := by
  have hmarked : markedWorld.manager.state 0 = .pinnedDirty := by
    rw [markedWorld, state_setState, Function.update_self]
  refine ⟨listedWorld, loops_stop_iff.2.mpr
    (.cons ⟨trivial, smallWorld_pin (Nat.le_refl 1) (by decide)⟩
      (.cons ⟨trivial, pinnedWorld_mark⟩
        (.cons ⟨⟨fun _ => not_reaches_none, fun hclean => ?_⟩,
          markedWorld_unpin⟩ (.nil _))))⟩
  exact absurd (hmarked.symm.trans hclean) (by decide)

end NickDB

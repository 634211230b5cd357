import NickDB.Buffer.Aliasing

/-!
# Nested pins

`buff_pin` succeeds on a page that is pinned already, so a frame may be held by
several clients at once, but a meta frame has no count of its pins.  For
clients that only pin pages and unpin the frames they got, this module says
when every unpin finds its frame pinned.
-/

namespace NickDB

open Linked Runs BufferManager

variable {frames : ℕ}

/-- The clients only pin pages, and unpin frames they hold. -/
def MatchesPins (s : World frames × Holds frames) :
    BufferEvent frames → Prop
  | .pin _ _ _ _ => True
  | .unpin f _ => IsHeld f s.2
  | _ => False

/-- The steps of such clients. -/
abbrev pinStep : World frames × Holds frames → BufferEvent frames →
    World frames × Holds frames → Prop :=
  Guarded clientStep MatchesPins

/-- Every frame that is held is pinned, for the page of its holders. -/
def HoldsPinned (manager : BufferManager frames) (held : Holds frames) :
    Prop :=
  ∀ f p, (f, p) ∈ held →
    (manager.state f).IsPinned ∧ manager.index f = p

/-- Frames stay pinned while they are held, and their holders can unpin
them. -/
def StaysPinned (_ : World frames × Holds frames) (event : BufferEvent frames)
    (t : World frames × Holds frames) : Prop :=
  (∀ f status, event = .unpin f status → status = .ok) ∧
    HoldsPinned t.1.manager t.2

/-- In addition a frame that is held is on neither list. -/
def Nests (s : World frames × Holds frames) (event : BufferEvent frames)
    (t : World frames × Holds frames) : Prop :=
  StaysPinned s event t ∧ ∀ f, IsHeld f t.2 →
    ¬Reaches t.1.manager.link t.1.manager.freelist f ∧
      ¬Reaches t.1.manager.link t.1.manager.writeback f

/-- The call of `buff_pin` returns a frame. -/
def Obtains (activation : ℕ) (manager : BufferManager frames)
    (file : StoreFile) (index : PageIndex) : Prop :=
  index ≠ metadataIndex ∧ ∃ f, manager.freelist = some f ∧
    (manager.Knows activation ∨
      (getPage (manager.buffer f) manager.store file index).1 = .ok)

/-- No pin returns a frame. -/
def ObtainsNothing (s : World frames × Holds frames) :
    BufferEvent frames → Prop
  | .pin activation index _ _ =>
      ¬Obtains activation s.1.manager s.1.file index
  | _ => True

/-- If the key of the call is known, the first free frame is pinned for the page
already; otherwise the page is not read into it, or all its holders asked for
this page. -/
def PinSharesPage (held : Holds frames) (activation : ℕ)
    (manager : BufferManager frames) (file : StoreFile) (index : PageIndex) :
    Prop :=
  index = metadataIndex ∨ ∀ f, manager.freelist = some f →
    if manager.Knows activation then
      (manager.state f).IsPinned ∧ manager.index f = index
    else
      (getPage (manager.buffer f) manager.store file index).1 = .ok →
        ∀ q, (f, q) ∈ held → q = index

/-- A frame is shared by holders of its page only, and has no other holder when
it is unpinned. -/
def OneHolder (s : World frames × Holds frames) : BufferEvent frames → Prop
  | .pin activation index _ _ =>
      PinSharesPage s.2 activation s.1.manager s.1.file index
  | .unpin f _ => ¬IsHeld f (release f s.2)
  | _ => True

variable {manager manager' : BufferManager frames} {file file' : StoreFile}
  {held : Holds frames}

/-! ## Pins that return nothing -/

theorem obtains_iff {activation : ℕ} {index : PageIndex} {status : Status}
    {frame : Option (Fin frames)}
    (hcall : PinOutcome activation manager file index status frame manager'
      file') :
    Obtains activation manager file index ↔ status = .ok := by
  cases hcall with
  | metaPage hindex =>
      exact iff_of_false (fun hobtains => hobtains.1 hindex) nofun
  | noFreeFrames hindex hfree =>
      refine iff_of_false ?_ nofun
      rintro ⟨-, f, hf, -⟩
      exact absurd (hfree.symm.trans hf) (by simp)
  | hit hindex hfree hknown =>
      exact iff_of_true ⟨hindex, _, hfree, Or.inl hknown⟩ rfl
  | @unread f status page file' hindex hfree hnew hget hstatus =>
      refine iff_of_false ?_ hstatus
      rintro ⟨-, g, hg, hknown | hok⟩
      · exact hnew hknown
      · obtain rfl := Option.some.inj (hfree.symm.trans hg)
        exact hstatus ((congrArg Prod.fst hget).symm.trans hok)
  | taken hindex hfree hnew hget hnext =>
      exact iff_of_true ⟨hindex, _, hfree, Or.inr (congrArg Prod.fst hget)⟩ rfl

/-- The free list starts at the frame that a pin returns. -/
theorem PinOutcome.freelist_of_ok {activation : ℕ} {index : PageIndex}
    {frame : Option (Fin frames)}
    (h : PinOutcome activation manager file index .ok frame manager' file') :
    ∃ f, frame = some f ∧ manager'.freelist = some f := by
  obtain ⟨f, hf, hfree⟩ := h.frame_of_ok
  exact ⟨f, hf, h.freelist_eq.trans hfree⟩

/-- While nothing is held, pins nest as long as no pin returns a frame. -/
theorem nests_iff {s t : World frames × Holds frames}
    {event : BufferEvent frames} (h : s.2 = [])
    (hcall : pinStep s event t) :
    (Nests s event t ↔ ObtainsNothing s event) ∧
      (Nests s event t → t.2 = []) := by
  obtain ⟨⟨manager, file⟩, held⟩ := s
  obtain ⟨⟨manager', file'⟩, held'⟩ := t
  obtain ⟨hmatches, hcall, rfl⟩ := hcall
  obtain rfl : held = [] := h
  cases event with
  | pin activation index status frame =>
      have hpin := buffPin_eq_some_iff.mp hcall
      by_cases hstatus : status = .ok
      · subst hstatus
        obtain ⟨f, rfl, hfree⟩ := hpin.freelist_of_ok
        have hnot : ¬Nests (⟨manager, file⟩, [])
            (.pin activation index .ok (some f))
            (⟨manager', file'⟩, [(f, index)]) := by
          rintro ⟨-, hlists⟩
          exact (hlists f ⟨index, List.mem_singleton_self _⟩).1 ⟨[], hfree⟩
        refine ⟨iff_of_false hnot ?_, fun hnests => absurd hnests hnot⟩
        exact not_not.mpr ((obtains_iff hpin).mpr rfl)
      · obtain rfl := hpin.frame_of_not_ok hstatus
        simp only [holdsAfter_pin_none]
        refine ⟨iff_of_true ⟨⟨nofun, nofun⟩, ?_⟩ ?_, fun _ => trivial⟩
        · rintro f ⟨p, hp⟩
          cases hp
        · exact fun hobtains => hstatus ((obtains_iff hpin).mp hobtains)
  | allocFrame activation pageFrame status pair => exact hmatches.elim
  | write frame page => exact hmatches.elim
  | mark frame status => exact hmatches.elim
  | unpin f status =>
      obtain ⟨p, hp⟩ := hmatches
      cases hp
  | freeFrame frame status => exact hmatches.elim
  | flushAll status => exact hmatches.elim

/-! ## Frames with one holder -/

theorem HoldsPinned.pin_iff (h : HoldsPinned manager held) {activation : ℕ}
    {index : PageIndex} {status : Status} {frame : Option (Fin frames)}
    (hcall : PinOutcome activation manager file index status frame manager'
      file') :
    HoldsPinned manager'
        (holdsAfter held (.pin activation index status frame)) ↔
      PinSharesPage held activation manager file index := by
  cases hcall with
  | metaPage hindex => exact iff_of_true h (Or.inl hindex)
  | noFreeFrames hindex hfree =>
      refine iff_of_true h (Or.inr fun f hf => ?_)
      exact absurd (hfree.symm.trans hf) (by simp)
  | @hit f hindex hfree hknown =>
      have hguard : PinSharesPage held activation manager file index ↔
          (manager.state f).IsPinned ∧ manager.index f = index := by
        simp [PinSharesPage, hindex, hfree, hknown]
      rw [hguard]
      constructor
      · intro h'
        exact h' f index List.mem_cons_self
      · intro hpinned g p hg
        rcases List.mem_cons.mp hg with heq | hg'
        · obtain ⟨rfl, rfl⟩ := Prod.mk.inj heq
          exact hpinned
        · exact h g p hg'
  | @unread f status page file' hindex hfree hnew hget hstatus =>
      have hguard : PinSharesPage held activation manager file index := by
        simp [PinSharesPage, hfree, hnew, hget, hstatus]
      rw [holdsAfter_pin_none]
      exact iff_of_true h hguard
  | @taken f next page file' hindex hfree hnew hget hnext =>
      have hguard : PinSharesPage held activation manager file index ↔
          ∀ q, (f, q) ∈ held → q = index := by
        simp [PinSharesPage, hindex, hfree, hnew, hget]
      rw [hguard]
      constructor
      · intro h' q hq
        have hindex' := (h' f q (List.mem_cons_of_mem _ hq)).2
        rw [index_claim, Function.update_self] at hindex'
        exact hindex'.symm
      · intro hall g p hg
        rw [state_claim, index_claim]
        by_cases hgf : g = f
        · subst hgf
          have hp : p = index := by
            rcases List.mem_cons.mp hg with heq | hg'
            · exact (Prod.mk.inj heq).2
            · exact hall p hg'
          rw [Function.update_self, Function.update_self]
          exact ⟨Or.inl rfl, hp.symm⟩
        · have hg' : (g, p) ∈ held := by
            rcases List.mem_cons.mp hg with heq | hg'
            · exact absurd (Prod.mk.inj heq).1 hgf
            · exact hg'
          rw [Function.update_of_ne hgf, Function.update_of_ne hgf]
          exact h g p hg'

/-- The frame that is unpinned loses all its holders or breaks the promise. -/
theorem HoldsPinned.release_iff (h : HoldsPinned manager held)
    {f : Fin frames} {st : FrameState} (hst : ¬st.IsPinned)
    (hstate : manager'.state = Function.update manager.state f st)
    (hindex : manager'.index = manager.index) :
    HoldsPinned manager' (release f held) ↔
      ¬IsHeld f (release f held) := by
  constructor
  · rintro h' ⟨q, hq⟩
    have hpinned := (h' f q hq).1
    rw [hstate, Function.update_self] at hpinned
    exact hst hpinned
  · intro hnone g q hq
    have hgf : g ≠ f := by
      rintro rfl
      exact hnone ⟨q, hq⟩
    rw [hstate, hindex, Function.update_of_ne hgf]
    exact h g q (List.mem_of_mem_eraseP hq)

theorem HoldsPinned.unpin_iff (h : HoldsPinned manager held) {f : Fin frames}
    {status : Status} (hheld : IsHeld f held)
    (hcall : UnpinOutcome manager f status manager') :
    status = .ok ∧ (HoldsPinned manager' (release f held) ↔
      ¬IsHeld f (release f held)) := by
  obtain ⟨p, hp⟩ := hheld
  cases hcall with
  | dirty removed hstate hremove =>
      exact ⟨rfl, h.release_iff
        (by decide : ¬FrameState.unpinnedDirty.IsPinned)
        (state_pushDirty manager f) (index_pushDirty manager f)⟩
  | clean removed hstate hremove =>
      exact ⟨rfl, h.release_iff (by decide : ¬FrameState.unpinned.IsPinned)
        (state_pushFree manager f) (index_pushFree manager f)⟩
  | refused hstate => exact absurd (h f p hp).1 hstate

theorem staysPinned_iff {s t : World frames × Holds frames}
    {event : BufferEvent frames} (h : HoldsPinned s.1.manager s.2)
    (hcall : pinStep s event t) :
    StaysPinned s event t ↔ OneHolder s event := by
  obtain ⟨⟨manager, file⟩, held⟩ := s
  obtain ⟨⟨manager', file'⟩, held'⟩ := t
  obtain ⟨hmatches, hcall, rfl⟩ := hcall
  cases event with
  | pin activation index status frame =>
      have hiff := HoldsPinned.pin_iff h (buffPin_eq_some_iff.mp hcall)
      exact (and_iff_right nofun).trans hiff
  | allocFrame activation pageFrame status pair => exact hmatches.elim
  | write frame page => exact hmatches.elim
  | mark frame status => exact hmatches.elim
  | unpin f status =>
      obtain ⟨hok, hiff⟩ :=
        HoldsPinned.unpin_iff h hmatches (unpinOutcome_of_buffUnpin hcall.1)
      refine (and_iff_right ?_).trans hiff
      rintro g status' heq
      cases heq
      exact hok
  | freeFrame frame status => exact hmatches.elim
  | flushAll status => exact hmatches.elim

/-! ## Runs -/

/-- From the initial manager on: pins nest in every state of a run exactly when
no pin of the run returns a frame; apart from the lists, which a frame that is
held never leaves, they do so exactly when a frame is shared by holders of one
page only and never unpinned while it has another holder.  An unpin never
fails to return. -/
theorem pins_nest_iff {store : Backing} {hframes : 0 < frames}
    {file : StoreFile} {events : List (BufferEvent frames)}
    {t : World frames × Holds frames} :
    (Run (Ensuring pinStep Nests) (startWorld store hframes file, [])
        events t ↔
      Run (Guarded pinStep ObtainsNothing)
        (startWorld store hframes file, []) events t) ∧
    (Run (Ensuring pinStep StaysPinned) (startWorld store hframes file, [])
        events t ↔
      Run (Guarded pinStep OneHolder) (startWorld store hframes file, [])
        events t) ∧
    (Run pinStep (startWorld store hframes file, []) events t →
      ∀ f, ∃ status u, clientStep t (.unpin f status) u) := by
  have hnone : HoldsPinned (startWorld store hframes file).manager [] := nofun
  have hkeys : StackKeys (startWorld store hframes file).manager := rfl
  refine ⟨?_, ?_, ?_⟩
  · refine Run.ensuring_iff_guarded
      (I := fun s : World frames × Holds frames => s.2 = []) ?_ ?_ rfl
    · intro s event t h hcall
      exact (nests_iff h hcall).1
    · intro s event t h hcall
      exact (nests_iff h hcall).2
  · refine Run.ensuring_iff_guarded
      (I := fun s : World frames × Holds frames =>
        HoldsPinned s.1.manager s.2) ?_ ?_ hnone
    · intro s event t h hcall
      exact staysPinned_iff h hcall
    · intro s event t _ _ hstays
      exact hstays.2
  · intro hrun f
    have hstill : StackKeys t.1.manager := by
      refine hrun.invariant
        (I := fun s : World frames × Holds frames => StackKeys s.1.manager)
        ?_ hkeys
      intro s event t h hcall
      exact h.step hcall.2.1
    obtain ⟨status, manager', hcall⟩ := hstill.exists_unpin f
    exact ⟨status, (⟨manager', t.1.file⟩, release f t.2), ⟨hcall, rfl⟩, rfl⟩

/-- Two clients pin the same page.  The first unpin takes the frame away from
the other client, whose own unpin is refused. -/
theorem pins_not_nested :
    ∃ s t, Run pinStep (smallWorld, [])
        [.pin 0 1 .ok (some 0), .pin 0 1 .ok (some 0), .unpin 0 .ok] s ∧
      pinStep s (.unpin 0 .err) t ∧ ¬(s.1.manager.state 0).IsPinned := by
  have hfirst : pinStep (smallWorld, []) (.pin 0 1 .ok (some 0))
      (pinnedWorld 1, [(0, 1)]) :=
    ⟨trivial, smallWorld_pin (Nat.le_refl 1) (by decide), rfl⟩
  have hsecond : pinStep (pinnedWorld 1, [(0, 1)]) (.pin 0 1 .ok (some 0))
      (pinnedWorld 1, [(0, 1), (0, 1)]) :=
    ⟨trivial, pinnedWorld_pin 1 (by decide), rfl⟩
  have hunpin : pinStep (pinnedWorld 1, [(0, 1), (0, 1)]) (.unpin 0 .ok)
      (⟨(pinnedWorld 1).manager.pushFree 0, reliable (blankStore 2)⟩,
        [(0, 1)]) :=
    ⟨⟨1, List.mem_cons_self⟩, pinnedWorld_unpin 1, rfl⟩
  have hnot : ¬(((pinnedWorld 1).manager.pushFree 0).state 0).IsPinned := by
    rw [state_pushFree, Function.update_self]
    decide
  refine ⟨_, (⟨(pinnedWorld 1).manager.pushFree 0, reliable (blankStore 2)⟩,
    []), .cons hfirst (.cons hsecond (.cons hunpin (.nil _))), ?_, hnot⟩
  exact ⟨⟨1, List.mem_singleton_self _⟩,
    ⟨buffUnpin_of_not_pinned hnot, rfl⟩, rfl⟩

/-- A frame that is pinned and unpinned once. -/
theorem pins_nest_once :
    ∃ t, Run (Ensuring pinStep StaysPinned) (smallWorld, [])
      [.pin 0 1 .ok (some 0), .unpin 0 .ok] t := by
  have hpin : pinStep (smallWorld, []) (.pin 0 1 .ok (some 0))
      (pinnedWorld 1, [(0, 1)]) :=
    ⟨trivial, smallWorld_pin (Nat.le_refl 1) (by decide), rfl⟩
  have hunpin : pinStep (pinnedWorld 1, [(0, 1)]) (.unpin 0 .ok)
      (⟨(pinnedWorld 1).manager.pushFree 0, reliable (blankStore 2)⟩, []) :=
    ⟨⟨1, List.mem_singleton_self _⟩, pinnedWorld_unpin 1, rfl⟩
  have hshares : OneHolder (smallWorld, []) (.pin 0 1 .ok (some 0)) := by
    refine Or.inr fun f _ => ?_
    split
    next hknown => exact absurd hknown Bool.false_ne_true
    next => nofun
  have halone : OneHolder (pinnedWorld 1, [(0, 1)]) (.unpin 0 .ok) := by
    rintro ⟨p, hp⟩
    cases hp
  exact ⟨_, pins_nest_iff.2.1.mpr
    (.cons ⟨hshares, hpin⟩ (.cons ⟨halone, hunpin⟩ (.nil _)))⟩

end NickDB

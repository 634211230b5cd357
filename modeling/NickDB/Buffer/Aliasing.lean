import NickDB.Buffer.Session

/-!
# Frames held by several clients

Clients that asked for different pages must not share a frame, and a frame must
keep its bytes, its page and its pin as long as a client holds it.  The first
free frame is never taken off the free list, so the next `buff_pin` returns it
again, whoever holds it.  This module states the exact condition under which a
call leaves the held frames alone.
-/

namespace NickDB

open Runs BufferManager

variable {frames : ℕ}

/-- Some client holds the frame. -/
def IsHeld (f : Fin frames) (held : Holds frames) : Prop :=
  ∃ p, (f, p) ∈ held

/-- Frames held for different pages are different. -/
def HoldsDisjoint (held : Holds frames) : Prop :=
  ∀ f p q, (f, p) ∈ held → (f, q) ∈ held → p = q

/-- The manager keeps the bytes, the page and the pin of a frame. -/
def KeepsFrame (manager manager' : BufferManager frames) (f : Fin frames) :
    Prop :=
  manager'.buffer f = manager.buffer f ∧
    manager'.index f = manager.index f ∧
    ((manager'.state f).IsPinned ↔ (manager.state f).IsPinned)

/-- The holds stay disjoint, and a frame that is held all along is kept. -/
def KeepsHeld (held held' : Holds frames)
    (manager manager' : BufferManager frames) : Prop :=
  HoldsDisjoint held' ∧ ∀ f, IsHeld f held → IsHeld f held' →
    KeepsFrame manager manager' f

/-- Unless it is a client that writes to its frame, the step disturbs no frame
that is held before and after it. -/
def Undisturbed (s : World frames × Holds frames) (event : BufferEvent frames)
    (t : World frames × Holds frames) : Prop :=
  match event with
  | .write _ _ => HoldsDisjoint t.2
  | _ => KeepsHeld s.2 t.2 s.1.manager t.1.manager

/-- `buff_pin` spares the holders of the first free frame: it is refused, or
all of them hold the frame for the page it asks for, and what it reads into the
frame is there already. -/
def PinSparesHeld (held : Holds frames) (activation : ℕ)
    (manager : BufferManager frames) (file : StoreFile) (index : PageIndex) :
    Prop :=
  index = metadataIndex ∨ ∀ f, manager.freelist = some f →
    if manager.Knows activation then ∀ q, (f, q) ∈ held → q = index
    else IsHeld f held →
      let read := getPage (manager.buffer f) manager.store file index
      read.2.1 = manager.buffer f ∧
        (read.1 = .ok → (manager.state f).IsPinned ∧
          manager.index f = index ∧ ∀ q, (f, q) ∈ held → q = index)

/-- The call spares the frames that are held. -/
def SparesHeld (s : World frames × Holds frames) : BufferEvent frames → Prop
  | .pin activation index _ _ =>
      PinSparesHeld s.2 activation s.1.manager s.1.file index
  | .allocFrame activation pageFrame _ _ => pageFrame = true →
      ∀ page file,
        allocPage none s.1.manager.store s.1.file = (.ok, page, file) →
        PinSparesHeld s.2 activation s.1.manager file page
  | .write _ _ => True
  | .mark _ _ => True
  | .unpin f _ =>
      IsHeld f (release f s.2) → ¬(s.1.manager.state f).IsPinned
  | .freeFrame frame _ => ∀ f ∈ frame,
      IsHeld f (release f s.2) → ¬(s.1.manager.state f).IsPinned
  | .flushAll _ => ∀ f, WritesBack s.1.manager s.1.file f →
      IsHeld f s.2 → ¬(s.1.manager.state f).IsPinned

variable {manager manager' : BufferManager frames} {file file' : StoreFile}
  {held : Holds frames}

/-! ## Holds -/

theorem IsHeld.of_release {f g : Fin frames}
    (h : IsHeld f (release g held)) : IsHeld f held := by
  obtain ⟨p, hp⟩ := h
  exact ⟨p, List.mem_of_mem_eraseP hp⟩

theorem HoldsDisjoint.release (h : HoldsDisjoint held) (f : Fin frames) :
    HoldsDisjoint (release f held) :=
  fun g p q hp hq =>
    h g p q (List.mem_of_mem_eraseP hp) (List.mem_of_mem_eraseP hq)

/-- One more hold on a frame. -/
theorem HoldsDisjoint.cons_iff (h : HoldsDisjoint held) (f : Fin frames)
    (p : PageIndex) :
    HoldsDisjoint ((f, p) :: held) ↔ ∀ q, (f, q) ∈ held → q = p := by
  constructor
  · intro h' q hq
    exact h' f q p (List.mem_cons_of_mem _ hq) List.mem_cons_self
  · intro hsame g q r hq hr
    rcases List.mem_cons.mp hq with heq | hq'
    · obtain ⟨rfl, rfl⟩ := Prod.mk.inj heq
      rcases List.mem_cons.mp hr with heq' | hr'
      · exact (Prod.mk.inj heq').2.symm
      · exact (hsame r hr').symm
    · rcases List.mem_cons.mp hr with heq' | hr'
      · obtain ⟨rfl, rfl⟩ := Prod.mk.inj heq'
        exact hsame q hq'
      · exact h g q r hq' hr'

theorem KeepsFrame.refl (manager : BufferManager frames) (f : Fin frames) :
    KeepsFrame manager manager f :=
  ⟨rfl, rfl, Iff.rfl⟩

theorem HoldsDisjoint.keepsHeld_refl (h : HoldsDisjoint held)
    (manager : BufferManager frames) : KeepsHeld held held manager manager :=
  ⟨h, fun f _ _ => KeepsFrame.refl manager f⟩

theorem IsHeld.cons {f g : Fin frames} {p : PageIndex} (h : IsHeld f held) :
    IsHeld f ((g, p) :: held) := by
  obtain ⟨q, hq⟩ := h
  exact ⟨q, List.mem_cons_of_mem _ hq⟩

/-! ## One lemma for each call -/

/-- Bytes that are read to a frame are those that a holder of it has. -/
theorem HoldsDisjoint.keeps_read_iff (h : HoldsDisjoint held)
    (activation : ℕ) (f : Fin frames) (page : Page) :
    KeepsHeld held held manager
        ((manager.learn activation).setBuffer f page) ↔
      (IsHeld f held → page = manager.buffer f) := by
  constructor
  · rintro ⟨-, hkeeps⟩ hheld
    have hbuffer := (hkeeps f hheld hheld).1
    rwa [buffer_setBuffer, buffer_learn, Function.update_self] at hbuffer
  · intro hpage
    refine ⟨h, fun g hg _ => ⟨?_, rfl, Iff.rfl⟩⟩
    rw [buffer_setBuffer, buffer_learn]
    by_cases hgf : g = f
    · subst hgf
      rw [Function.update_self, hpage hg]
    · rw [Function.update_of_ne hgf]

/-- A frame that is taken already holds the page for those who have it. -/
theorem HoldsDisjoint.keeps_taken_iff (h : HoldsDisjoint held)
    (activation : ℕ) (f : Fin frames) (page : Page) (index : PageIndex)
    (next : Option (Fin frames)) :
    KeepsHeld held ((f, index) :: held) manager
        (((manager.learn activation).setBuffer f page).claim f index next) ↔
      (IsHeld f held → page = manager.buffer f ∧
        (manager.state f).IsPinned ∧ manager.index f = index ∧
        ∀ q, (f, q) ∈ held → q = index) := by
  constructor
  · rintro ⟨hdisjoint, hkeeps⟩ hheld
    obtain ⟨hbuffer, hpage, hpinned⟩ := hkeeps f hheld hheld.cons
    rw [buffer_claim, buffer_setBuffer, Function.update_self] at hbuffer
    rw [index_claim, Function.update_self] at hpage
    rw [state_claim, Function.update_self] at hpinned
    exact ⟨hbuffer, hpinned.mp (Or.inl rfl), hpage.symm,
      (h.cons_iff f index).mp hdisjoint⟩
  · intro hspares
    constructor
    · refine (h.cons_iff f index).mpr fun q hq => ?_
      exact (hspares ⟨q, hq⟩).2.2.2 q hq
    · intro g hg _
      by_cases hgf : g = f
      · subst hgf
        obtain ⟨hpage, hpinned, hsame, -⟩ := hspares hg
        refine ⟨?_, ?_, ?_⟩
        · rw [buffer_claim, buffer_setBuffer, Function.update_self, hpage]
        · rw [index_claim, Function.update_self, hsame]
        · rw [state_claim, Function.update_self]
          exact iff_of_true (Or.inl rfl) hpinned
      · refine ⟨?_, ?_, ?_⟩
        · rw [buffer_claim, buffer_setBuffer, Function.update_of_ne hgf]
          rfl
        · rw [index_claim, Function.update_of_ne hgf]
          rfl
        · rw [state_claim, Function.update_of_ne hgf]
          rfl

theorem pin_keeps_iff (h : HoldsDisjoint held) {activation : ℕ}
    {index : PageIndex} {status : Status} {frame : Option (Fin frames)}
    (hcall : PinOutcome activation manager file index status frame manager'
      file') :
    KeepsHeld held (holdsAfter held (.pin activation index status frame))
        manager manager' ↔
      PinSparesHeld held activation manager file index := by
  cases hcall with
  | metaPage hindex =>
      exact iff_of_true (h.keepsHeld_refl manager) (Or.inl hindex)
  | noFreeFrames hindex hfree =>
      refine iff_of_true (h.keepsHeld_refl manager) (Or.inr fun f hf => ?_)
      exact absurd (hfree.symm.trans hf) (by simp)
  | @hit f hindex hfree hknown =>
      have hguard : PinSparesHeld held activation manager file index ↔
          ∀ q, (f, q) ∈ held → q = index := by
        simp [PinSparesHeld, hindex, hfree, hknown]
      rw [hguard, ← h.cons_iff]
      exact and_iff_left fun g _ _ => KeepsFrame.refl manager g
  | @unread f status page file' hindex hfree hnew hget hstatus =>
      have hguard : PinSparesHeld held activation manager file index ↔
          (IsHeld f held → page = manager.buffer f) := by
        simp [PinSparesHeld, hindex, hfree, hnew, hget, hstatus]
      rw [hguard, holdsAfter_pin_none]
      exact h.keeps_read_iff activation f page
  | @taken f next page file' hindex hfree hnew hget hnext =>
      have hguard : PinSparesHeld held activation manager file index ↔
          (IsHeld f held → page = manager.buffer f ∧
            (manager.state f).IsPinned ∧ manager.index f = index ∧
            ∀ q, (f, q) ∈ held → q = index) := by
        simp [PinSparesHeld, hindex, hfree, hnew, hget]
      rw [hguard]
      exact h.keeps_taken_iff activation f page index (manager.link next)

theorem alloc_keeps_iff (h : HoldsDisjoint held) {activation : ℕ}
    {pageFrame : Bool} {status : Status}
    {pair : Option (Fin frames × PageIndex)}
    (hcall : AllocOutcome activation manager file pageFrame status pair
      manager' file') :
    KeepsHeld held
        (holdsAfter held (.allocFrame activation pageFrame status pair))
        manager manager' ↔
      (pageFrame = true → ∀ page file₁,
        allocPage none manager.store file = (.ok, page, file₁) →
        PinSparesHeld held activation manager file₁ page) := by
  cases hcall with
  | noPair =>
      exact iff_of_true (h.keepsHeld_refl manager) nofun
  | @refused status page file' halloc hstatus =>
      rw [holdsAfter_allocFrame_none]
      refine iff_of_true (h.keepsHeld_refl manager) ?_
      intro _ page₁ file₁ halloc'
      rw [halloc] at halloc'
      exact absurd (congrArg Prod.fst halloc') hstatus
  | @unpinned page status frame manager' file₁ file' halloc hpin hstatus =>
      rw [forall_alloc_iff halloc, ← pin_keeps_iff h hpin,
        holdsAfter_allocFrame_none, hpin.frame_of_not_ok hstatus,
        holdsAfter_pin_none]
  | pinned halloc hpin =>
      rw [forall_alloc_iff halloc, ← pin_keeps_iff h hpin]
      rfl

/-- A call that unpins a frame spares those who still hold it if the frame was
not pinned. -/
theorem release_keeps_iff (h : HoldsDisjoint held) {f : Fin frames}
    {st : FrameState} (hst : ¬st.IsPinned)
    (hbuffer : manager'.buffer = manager.buffer)
    (hindex : manager'.index = manager.index)
    (hstate : manager'.state = Function.update manager.state f st) :
    KeepsHeld held (release f held) manager manager' ↔
      (IsHeld f (release f held) → ¬(manager.state f).IsPinned) := by
  constructor
  · rintro ⟨-, hkeeps⟩ hheld
    have hsame := (hkeeps f hheld.of_release hheld).2.2
    rw [hstate, Function.update_self] at hsame
    exact fun hpinned => hst (hsame.mpr hpinned)
  · intro hreleased
    refine ⟨h.release f, fun g _ hg => ⟨congrFun hbuffer g,
      congrFun hindex g, ?_⟩⟩
    rw [hstate]
    by_cases hgf : g = f
    · subst hgf
      rw [Function.update_self]
      exact iff_of_false hst (hreleased hg)
    · rw [Function.update_of_ne hgf]

theorem unpin_keeps_iff (h : HoldsDisjoint held) {f : Fin frames}
    {status : Status} (hcall : UnpinOutcome manager f status manager') :
    KeepsHeld held (release f held) manager manager' ↔
      (IsHeld f (release f held) → ¬(manager.state f).IsPinned) := by
  cases hcall with
  | dirty removed hstate hremove =>
      exact release_keeps_iff h
        (by decide : ¬FrameState.unpinnedDirty.IsPinned) rfl
        (index_pushDirty manager f) (state_pushDirty manager f)
  | clean removed hstate hremove =>
      exact release_keeps_iff h (by decide : ¬FrameState.unpinned.IsPinned)
        rfl (index_pushFree manager f) (state_pushFree manager f)
  | refused hstate =>
      exact iff_of_true ⟨h.release f, fun g _ _ => KeepsFrame.refl manager g⟩
        fun _ => hstate

theorem free_keeps_iff (h : HoldsDisjoint held) {frame : Option (Fin frames)}
    {status : Status}
    (hcall : FreeOutcome manager file frame status manager' file') :
    KeepsHeld held (holdsAfter held (.freeFrame frame status)) manager
        manager' ↔
      ∀ f ∈ frame, IsHeld f (release f held) →
        ¬(manager.state f).IsPinned := by
  cases hcall with
  | noFrame => exact iff_of_true (h.keepsHeld_refl manager) nofun
  | @freed f status file' removed hfree hremove =>
      have hguard : (∀ g ∈ some f, IsHeld g (release g held) →
          ¬(manager.state g).IsPinned) ↔
          (IsHeld f (release f held) → ¬(manager.state f).IsPinned) := by
        simp
      rw [hguard]
      exact release_keeps_iff h (by decide : ¬FrameState.unpinned.IsPinned)
        rfl (index_pushFree manager f) (state_pushFree manager f)

theorem mark_keeps {f : Fin frames} {status : Status}
    (hcall : MarkOutcome manager f status manager') (g : Fin frames) :
    KeepsFrame manager manager' g := by
  cases hcall with
  | clean hstate =>
      refine ⟨rfl, congrFun (index_setState manager f .pinnedDirty) g, ?_⟩
      rw [state_setState]
      by_cases hgf : g = f
      · subst hgf
        rw [Function.update_self]
        exact iff_of_true (Or.inr rfl) (Or.inl hstate)
      · rw [Function.update_of_ne hgf]
  | dirty hstate => exact KeepsFrame.refl manager g
  | refused hstate => exact KeepsFrame.refl manager g

theorem flush_keeps_iff (h : HoldsDisjoint held)
    (hloop : writebackLoop manager file = some (manager', file')) :
    KeepsHeld held held manager manager' ↔
      ∀ f, WritesBack manager file f → IsHeld f held →
        ¬(manager.state f).IsPinned := by
  have hsame := same_of_loop manager file hloop
  constructor
  · rintro ⟨-, hkeeps⟩ f hwrites hheld hpinned
    have hstill := (hkeeps f hheld hheld).2.2.mpr hpinned
    rcases state_of_loop manager file hloop f with ⟨-, hstate⟩ | ⟨hnot, -⟩
    · exact hstill.ne_unpinned hstate
    · exact hnot hwrites
  · intro hspares
    refine ⟨h, fun f hheld _ => ⟨congrFun hsame.buffer f,
      congrFun hsame.index f, ?_⟩⟩
    rcases state_of_loop manager file hloop f with
      ⟨hwrites, hstate⟩ | ⟨-, hstate⟩
    · rw [hstate]
      exact iff_of_false (by decide) (hspares f hwrites hheld)
    · rw [hstate]

/-! ## Runs -/

/-- A call disturbs no held frame exactly when it spares the held frames. -/
theorem undisturbed_iff {s t : World frames × Holds frames}
    {event : BufferEvent frames} (h : HoldsDisjoint s.2)
    (hcall : clientStep s event t) :
    Undisturbed s event t ↔ SparesHeld s event := by
  obtain ⟨⟨manager, file⟩, held⟩ := s
  obtain ⟨⟨manager', file'⟩, held'⟩ := t
  obtain ⟨hcall, rfl⟩ := hcall
  cases event with
  | pin activation index status frame =>
      exact pin_keeps_iff h (buffPin_eq_some_iff.mp hcall)
  | allocFrame activation pageFrame status pair =>
      exact alloc_keeps_iff h (allocOutcome_of_buffAllocFrame hcall)
  | write frame page => exact iff_of_true h trivial
  | mark frame status =>
      have hkeeps := mark_keeps (markOutcome_of_buffMarkPage hcall.1)
      exact iff_of_true ⟨h, fun f _ _ => hkeeps f⟩ trivial
  | unpin frame status =>
      exact unpin_keeps_iff h (unpinOutcome_of_buffUnpin hcall.1)
  | freeFrame frame status =>
      exact free_keeps_iff h (freeOutcome_of_buffFreeFrame hcall)
  | flushAll status =>
      exact flush_keeps_iff h (flushAll_eq_some hcall).2

/-- From the initial manager on, no call of a run disturbs a frame that is
held exactly when all calls of the run spare the held frames. -/
theorem held_frames_undisturbed_iff {store : Backing} {hframes : 0 < frames}
    {file : StoreFile} {events : List (BufferEvent frames)}
    {t : World frames × Holds frames} :
    Run (Ensuring clientStep Undisturbed)
        (startWorld store hframes file, []) events t ↔
      Run (Guarded clientStep SparesHeld)
        (startWorld store hframes file, []) events t := by
  have hstart : HoldsDisjoint
      (startWorld store hframes file, ([] : Holds frames)).2 := nofun
  refine Run.ensuring_iff_guarded
    (I := fun s : World frames × Holds frames => HoldsDisjoint s.2)
    ?_ ?_ hstart
  · intro s event t h hcall
    exact undisturbed_iff h hcall
  · intro s event t _ _ hundisturbed
    cases event with
    | write frame page => exact hundisturbed
    | pin activation index status frame => exact hundisturbed.1
    | allocFrame activation pageFrame status pair => exact hundisturbed.1
    | mark frame status => exact hundisturbed.1
    | unpin frame status => exact hundisturbed.1
    | freeFrame frame status => exact hundisturbed.1
    | flushAll status => exact hundisturbed.1

/-- Two clients pin different pages and hold the same frame. -/
theorem held_frames_aliased :
    ∃ t, Run clientStep (smallWorld, [])
      [.pin 0 1 .ok (some 0), .pin 0 2 .ok (some 0)] t ∧
      ¬HoldsDisjoint t.2 := by
  have hfirst : clientStep (smallWorld, []) (.pin 0 1 .ok (some 0))
      (pinnedWorld 1, [(0, 1)]) :=
    ⟨smallWorld_pin (Nat.le_refl 1) (by decide), rfl⟩
  have hsecond : clientStep (pinnedWorld 1, [(0, 1)])
      (.pin 0 2 .ok (some 0)) (pinnedWorld 1, [(0, 2), (0, 1)]) :=
    ⟨pinnedWorld_pin 1 (by decide), rfl⟩
  refine ⟨_, .cons hfirst (.cons hsecond (.nil _)), fun h => ?_⟩
  exact absurd (h 0 2 1 (by simp) (by simp)) (by decide)

/-- One client pins a page and unpins its frame. -/
theorem held_frames_undisturbed :
    ∃ t, Run (Ensuring clientStep Undisturbed) (smallWorld, [])
      [.pin 0 1 .ok (some 0), .unpin 0 .ok] t := by
  have hpin : clientStep (smallWorld, []) (.pin 0 1 .ok (some 0))
      (pinnedWorld 1, [(0, 1)]) :=
    ⟨smallWorld_pin (Nat.le_refl 1) (by decide), rfl⟩
  have hunpin : clientStep (pinnedWorld 1, [(0, 1)]) (.unpin 0 .ok)
      (⟨(pinnedWorld 1).manager.pushFree 0, reliable (blankStore 2)⟩, []) :=
    ⟨pinnedWorld_unpin 1, rfl⟩
  have hspares : SparesHeld (smallWorld, []) (.pin 0 1 .ok (some 0)) := by
    refine Or.inr fun f _ => ?_
    split
    next hknown => exact absurd hknown Bool.false_ne_true
    next =>
      rintro ⟨p, hp⟩
      cases hp
  have hspares' : SparesHeld (pinnedWorld 1, [(0, 1)]) (.unpin 0 .ok) := by
    rintro ⟨p, hp⟩
    cases hp
  exact ⟨_, held_frames_undisturbed_iff.mpr
    (.cons ⟨hspares, hpin⟩ (.cons ⟨hspares', hunpin⟩ (.nil _)))⟩

end NickDB

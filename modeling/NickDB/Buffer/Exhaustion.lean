import NickDB.Buffer.OneFrameTraces

/-!
# How many pins are served

Each page that is taken drops a frame from the free list, although the same
frame is taken again and again.  So a manager serves fewer pins from different
places than it has frames, until one of its clients releases the frame, and
then it follows a null pointer.
-/

namespace NickDB

open Runs

variable {frames : ℕ}

/-- The events are answers to the calls of `buff_pin` from these places for
these pages. -/
def AnswersPins (pins : List (ℕ × PageIndex))
    (events : List (BufferEvent frames)) : Prop :=
  List.Forall₂ (fun call event => ∃ status frame,
    event = .pin call.1 call.2 status frame) pins events

/-- The answers of a manager that serves every call with the frame `name`. -/
def servedPins (name : Fin frames) (pins : List (ℕ × PageIndex)) :
    List (BufferEvent frames) :=
  pins.map fun call => .pin call.1 call.2 .ok (some name)

/-- The page can be read. -/
def IsReadable (store : Option Backing) (image : ByteFile UInt8)
    (index : PageIndex) : Prop :=
  index ≠ metadataIndex ∧ ∀ dest, ∃ bytes,
    getPage dest store (reliable image) index = (.ok, bytes, reliable image)

variable {name : Fin frames} {one : OneFrame} {image : ByteFile UInt8}
  {pins : List (ℕ × PageIndex)} {events : List (BufferEvent frames)}

theorem AnswersPins.uses_eq_none (h : AnswersPins pins events) :
    ∀ event ∈ events, event.uses = none := by
  induction h with
  | nil => simp
  | cons hanswer _ ih =>
      obtain ⟨status, frame, rfl⟩ := hanswer
      intro event hevent
      rcases List.mem_cons.mp hevent with rfl | hevent
      · rfl
      · exact ih event hevent

theorem AnswersPins.usesReturned (h : AnswersPins pins events) :
    UsesReturned events := by
  intro front event back heq f hf
  have hevent : event ∈ events := by
    rw [heq]
    simp
  rw [h.uses_eq_none event hevent] at hf
  cases hf

/-- A page that can be read is taken as long as there are moves left. -/
theorem OneFrame.pin_of_readable (name : Fin frames) {activation : ℕ}
    {index : PageIndex} (hnew : activation ∉ one.callers)
    (hpage : IsReadable one.store image index) :
    ∃ bytes, one.pin name activation (reliable image) index =
      if one.moves = 0 then none
      else some (.ok, some name, (one.fetched activation bytes).taking index,
        reliable image) := by
  obtain ⟨hindex, hread⟩ := hpage
  obtain ⟨bytes, hget⟩ := hread one.bytes
  refine ⟨bytes, ?_⟩
  rw [OneFrame.pin, if_neg hindex, if_neg hnew, hget]
  exact if_neg (not_not.mpr rfl)

/-- The machine serves as many calls from new places as it has moves. -/
theorem OneFrame.run_pins_iff {moves : ℕ} (hmoves : one.moves = moves)
    (hplaces : (pins.map Prod.fst).Nodup)
    (hnew : ∀ call ∈ pins, call.1 ∉ one.callers)
    (hpages : ∀ call ∈ pins, IsReadable one.store image call.2)
    (hanswers : AnswersPins pins events) :
    (∃ u, Run (OneFrame.step name) (one, reliable image) events u) ↔
      pins.length ≤ moves ∧ events = servedPins name pins := by
  induction hanswers generalizing one moves with
  | nil =>
      exact iff_of_true ⟨_, .nil _⟩ ⟨Nat.zero_le moves, rfl⟩
  | @cons call event pins events hanswer _ ih =>
      obtain ⟨activation, index⟩ := call
      obtain ⟨status, frame, rfl⟩ := hanswer
      obtain ⟨bytes, hpin⟩ := OneFrame.pin_of_readable name
        (hnew _ List.mem_cons_self) (hpages _ List.mem_cons_self)
      cases moves with
      | zero =>
          rw [if_pos (hmoves.trans Nat.cast_zero)] at hpin
          refine iff_of_false ?_ fun hserved => by simp at hserved
          rintro ⟨u, hrun⟩
          obtain ⟨v, hcall, -⟩ := run_cons_iff.mp hrun
          cases hpin.symm.trans hcall
      | succ moves =>
          have hleft : one.moves ≠ 0 := by
            rw [hmoves]
            exact Nat.cast_ne_zero.mpr (Nat.succ_ne_zero moves)
          rw [if_neg hleft] at hpin
          have hmoves' : one.moves - 1 = moves := by
            rw [hmoves, natCast_succ_sub_one]
          rw [List.map_cons, List.nodup_cons] at hplaces
          have hnew' : ∀ call ∈ pins, call.1 ∉
              ((one.fetched activation bytes).taking index).callers := by
            intro call hcall hmem
            rcases List.mem_cons.mp hmem with heq | hmem
            · subst heq
              exact hplaces.1 (List.mem_map.mpr ⟨call, hcall, rfl⟩)
            · exact hnew call (List.mem_cons_of_mem _ hcall) hmem
          have hrest := @ih ((one.fetched activation bytes).taking index) moves
            hmoves' hplaces.2 hnew' fun call hcall =>
            hpages call (List.mem_cons_of_mem _ hcall)
          constructor
          · rintro ⟨u, hrun⟩
            obtain ⟨v, hcall, hrun⟩ := run_cons_iff.mp hrun
            obtain ⟨rfl, rfl, rfl⟩ : Status.ok = status ∧ some name = frame ∧
                ((one.fetched activation bytes).taking index,
                  reliable image) = v := by
              simpa using hpin.symm.trans hcall
            obtain ⟨hlength, rfl⟩ := hrest.mp ⟨u, hrun⟩
            exact ⟨Nat.succ_le_succ hlength, rfl⟩
          · rintro ⟨hlength, hevents⟩
            obtain ⟨hevent, hevents⟩ := List.cons_eq_cons.mp hevents
            obtain ⟨u, hrun⟩ :=
              hrest.mpr ⟨Nat.le_of_succ_le_succ hlength, hevents⟩
            rw [hevent]
            exact ⟨u, .cons hpin hrun⟩

/-- Calls of `buff_pin` from different places, for pages that can be read, are
answered exactly if there are fewer of them than frames, and then each of them
gets the first frame. -/
theorem pins_served_iff {store : Backing} {hframes : 0 < frames}
    (hplaces : (pins.map Prod.fst).Nodup)
    (hpages : ∀ call ∈ pins, IsReadable (some store) image call.2)
    (hanswers : AnswersPins pins events) :
    (∃ t, Run bufferStep (startWorld store hframes (reliable image)) events t) ↔
      pins.length < frames ∧ events = servedPins ⟨0, hframes⟩ pins := by
  have hnew : ∀ call ∈ pins, call.1 ∉ (OneFrame.initial store frames).callers :=
    fun _ _ => List.not_mem_nil
  have hmachine := @OneFrame.run_pins_iff frames ⟨0, hframes⟩ _ image pins
    events (frames - 1) rfl hplaces hnew hpages hanswers
  have hcount : pins.length ≤ frames - 1 ↔ pins.length < frames := by omega
  rw [← hcount, ← hmachine]
  constructor
  · rintro ⟨t, hrun⟩
    obtain ⟨u, hrun', -⟩ := exists_one_frame_run hanswers.usesReturned hrun
    exact ⟨u, hrun'⟩
  · rintro ⟨u, hrun⟩
    obtain ⟨t, hrun', -⟩ := exists_manager_run hrun
    exact ⟨t, hrun'⟩

/-- Two pins need three frames. -/
theorem pins_served_iff_sample :
    (∃ t, Run bufferStep
      (startWorld ⟨3⟩ (Nat.succ_pos 2) (reliable (blankStore 2)))
      [.pin 0 1 .ok (some 0), .pin 1 2 .ok (some 0)] t) ∧
    ¬∃ t, Run bufferStep smallWorld
      [.pin 0 1 .ok (some 0), .pin 1 2 .ok (some 0)] t := by
  have hplaces : ([(0, 1), (1, 2)] : List (ℕ × PageIndex)).map Prod.fst
      |>.Nodup := by decide
  have hpages : ∀ call ∈ ([(0, 1), (1, 2)] : List (ℕ × PageIndex)),
      IsReadable (some ⟨3⟩) (blankStore 2) call.2 := by
    intro call hcall
    rcases List.mem_pair.mp hcall with rfl | rfl
    · exact ⟨by decide, fun dest => ⟨blankPage,
        getPage_blankStore (Nat.le_refl 1) (by decide) dest⟩⟩
    · exact ⟨by decide, fun dest => ⟨blankPage,
        getPage_blankStore (by decide) (Nat.le_refl 2) dest⟩⟩
  constructor
  · refine (pins_served_iff hplaces hpages ?_).mpr ⟨by decide, rfl⟩
    exact .cons ⟨_, _, rfl⟩ (.cons ⟨_, _, rfl⟩ .nil)
  · rw [smallWorld, pins_served_iff hplaces hpages
      (.cons ⟨_, _, rfl⟩ (.cons ⟨_, _, rfl⟩ .nil))]
    rintro ⟨hless, -⟩
    exact absurd hless (by decide)

end NickDB

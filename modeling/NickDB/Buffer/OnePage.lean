import NickDB.Buffer.OneFrameTraces
import NickDB.Store.Addressing

/-!
# One page in a life

A frame that is unpinned after it was marked goes to the write-back list and
stays there; its link is null then, so no page can be taken any more until a
frame is freed.  The page of this frame is the only one that flushes ever write.
So a manager whose clients free nothing changes at most one page of its store,
however many frames it has and however the transfers end.
-/

namespace NickDB

open Runs

variable {frames : ℕ} {image : ByteFile UInt8} {one : OneFrame}
  {file : StoreFile} {name : Fin frames} {u v : OneFrame × StoreFile}
  {event : BufferEvent frames}

/-- The calls that neither allocate nor free a page. -/
def BufferEvent.KeepsPages : BufferEvent frames → Prop
  | .allocFrame .. => False
  | .freeFrame .. => False
  | _ => True

/-- A page that is put changes the bytes of its range only, also where the
write stops short. -/
theorem byte_putPage {src : Page} {store : Option Backing}
    {index : PageIndex} {byte : ℕ} (hbyte : byte ∉ accessed index) :
    (putPage src store file index).2.image.byte byte =
      file.image.byte byte := by
  have hwrite : (pwrite file src (indexToOffset index)).2.image.byte byte =
      file.image.byte byte := by
    unfold pwrite
    split
    next => rfl
    next =>
      split
      next => rfl
      next k hcount =>
        simp only []
        refine ByteFile.byte_write_of_not_mem file.image _ _ ?_
        simp only [accessed, Set.mem_Ico, not_and_or, not_le, not_lt] at hbyte
        omega
  unfold putPage
  simp only []
  split
  next => rfl
  next =>
    split
    next => rfl
    next =>
      split
      next => rfl
      next => split <;> exact hwrite

/-- Nothing has been written, or the frame is on the write-back list for good
and what has been written is its page. -/
def OneFrame.WritesOnePage (image : ByteFile UInt8) (one : OneFrame)
    (file : StoreFile) : Prop :=
  one.listed = false ∧ file.image = image ∨
    one.listed = true ∧ one.moves = 0 ∧ ¬one.state.IsPinned ∧
      ∀ byte ∉ accessed one.page, file.image.byte byte = image.byte byte

section Steps

variable (h : OneFrame.WritesOnePage image one file)

include h

theorem OneFrame.WritesOnePage.pin {activation : ℕ} {index : PageIndex}
    {status : Status} {frame : Option (Fin frames)}
    (hcall : one.pin name activation file index = some (status, frame, v)) :
    OneFrame.WritesOnePage image v.1 v.2 := by
  obtain ⟨one', file'⟩ := v
  obtain ⟨-, himage, hone⟩ := pin_cases hcall
  have himage' : file'.image = file.image := himage
  rcases h with ⟨hlisted, hsame⟩ | ⟨hlisted, hmoves, hpinned, hbytes⟩
  · refine Or.inl ⟨?_, himage'.trans hsame⟩
    rcases hone with rfl | ⟨bytes, rfl | ⟨-, rfl⟩⟩
    · exact hlisted
    · exact hlisted
    · exact hlisted
  · have hkept : ∀ byte ∉ accessed one.page,
        file'.image.byte byte = image.byte byte := by
      rw [himage']
      exact hbytes
    rcases hone with rfl | ⟨bytes, rfl | ⟨htaken, -⟩⟩
    · exact Or.inr ⟨hlisted, hmoves, hpinned, hkept⟩
    · exact Or.inr ⟨hlisted, hmoves, hpinned, hkept⟩
    · exact absurd hmoves htaken

theorem OneFrame.WritesOnePage.mark :
    OneFrame.WritesOnePage image one.mark.2 file := by
  rcases h with ⟨hlisted, hsame⟩ | ⟨hlisted, hmoves, hpinned, hbytes⟩
  · refine Or.inl ⟨?_, hsame⟩
    unfold OneFrame.mark
    split <;> exact hlisted
  · have hrefused : one.mark.2 = one := by
      unfold OneFrame.mark
      split
      next hstate => exact absurd (Or.inl hstate) hpinned
      next => rfl
      next => rfl
    rw [hrefused]
    exact Or.inr ⟨hlisted, hmoves, hpinned, hbytes⟩

/-- The first release of a marked frame ends the moves. -/
theorem OneFrame.WritesOnePage.unpin :
    OneFrame.WritesOnePage image one.unpin.2 file := by
  rcases h with ⟨hlisted, hsame⟩ | ⟨hlisted, hmoves, hpinned, hbytes⟩
  · have himage : ∀ byte ∉ accessed one.page,
        file.image.byte byte = image.byte byte := by
      intro byte _
      exact congrArg (fun image => image.byte byte) hsame
    have hmoves : one.waiting.moves = 0 := if_neg (by simp [hlisted])
    have hpinned : ¬one.waiting.state.IsPinned := by
      simp [OneFrame.waiting, FrameState.IsPinned]
    unfold OneFrame.unpin
    split
    next => exact Or.inr ⟨rfl, hmoves, hpinned, himage⟩
    next => exact Or.inl ⟨hlisted, hsame⟩
    next => exact Or.inl ⟨hlisted, hsame⟩
  · have hrefused : one.unpin.2 = one := by
      unfold OneFrame.unpin
      split
      next hstate => exact absurd (Or.inr hstate) hpinned
      next hstate => exact absurd (Or.inl hstate) hpinned
      next => rfl
    rw [hrefused]
    exact Or.inr ⟨hlisted, hmoves, hpinned, hbytes⟩

theorem OneFrame.WritesOnePage.flush (hcall : one.flush file = some v) :
    OneFrame.WritesOnePage image v.1 v.2 := by
  rcases h with ⟨hlisted, hsame⟩ | ⟨hlisted, hmoves, hpinned, hbytes⟩
  · have hnothing : one.flush file = some (one, file) := if_pos hlisted
    obtain rfl := Option.some.inj (hnothing.symm.trans hcall)
    exact Or.inl ⟨hlisted, hsame⟩
  · have hput : ∀ byte ∉ accessed one.page,
        (putPage one.bytes one.store file one.page).2.image.byte byte =
          file.image.byte byte := fun byte hbyte => byte_putPage hbyte
    unfold OneFrame.flush at hcall
    rw [if_neg (by simp [hlisted]), if_pos hmoves] at hcall
    rcases hresult : putPage one.bytes one.store file one.page with
      ⟨status, file'⟩
    rw [hresult] at hcall hput
    cases hcall
    refine Or.inr ⟨hlisted, hmoves, ?_, fun byte hbyte => ?_⟩
    · by_cases hstatus : status = .ok
      · simp [hstatus, FrameState.IsPinned]
      · simpa [hstatus] using hpinned
    · exact (hput byte hbyte).trans (hbytes byte hbyte)

end Steps

/-- While the frame is on the write-back list no page is taken, so its page
stays the same. -/
theorem OneFrame.WritesOnePage.step (h : OneFrame.WritesOnePage image u.1 u.2)
    (hkeeps : event.KeepsPages) (hcall : OneFrame.step name u event v) :
    OneFrame.WritesOnePage image v.1 v.2 := by
  obtain ⟨one, file⟩ := u
  cases event with
  | pin activation index status frame =>
      exact OneFrame.WritesOnePage.pin h hcall
  | allocFrame activation wanted status pair => exact hkeeps.elim
  | write frame bytes =>
      obtain ⟨-, rfl⟩ := hcall
      exact h
  | mark frame status =>
      obtain ⟨one', file'⟩ := v
      obtain ⟨-, hmark, hfile⟩ := hcall
      obtain rfl : file' = file := hfile
      have hone : one.mark.2 = one' := congrArg Prod.snd hmark
      rw [← hone]
      exact OneFrame.WritesOnePage.mark h
  | unpin frame status =>
      obtain ⟨one', file'⟩ := v
      obtain ⟨-, hunpin, hfile⟩ := hcall
      obtain rfl : file' = file := hfile
      have hone : one.unpin.2 = one' := congrArg Prod.snd hunpin
      rw [← hone]
      exact OneFrame.WritesOnePage.unpin h
  | freeFrame frame status => exact hkeeps.elim
  | flushAll status => exact OneFrame.WritesOnePage.flush h hcall.2

/-- In every run of a manager whose clients use frames that they were given and
neither allocate nor free pages, the bytes of all pages but one stay as they
were. -/
theorem manager_writes_one_page {store : Backing} {hframes : 0 < frames}
    {events : List (BufferEvent frames)} {t : World frames}
    (huses : UsesReturned events) (hkeeps : ∀ event ∈ events, event.KeepsPages)
    (hrun : Run bufferStep (startWorld store hframes file) events t) :
    ∃ page : PageIndex, ∀ byte ∉ accessed page,
      t.file.image.byte byte = file.image.byte byte := by
  obtain ⟨u, hmachine, -, hfile⟩ := exists_one_frame_run huses hrun
  have hstart : OneFrame.WritesOnePage file.image
      (OneFrame.initial store frames) file := Or.inl ⟨rfl, rfl⟩
  have hend : OneFrame.WritesOnePage file.image u.1 u.2 :=
    hmachine.invariant_of_forall_mem
      (I := fun u : OneFrame × StoreFile =>
        OneFrame.WritesOnePage file.image u.1 u.2)
      (fun _ _ _ h hkeeps hcall => h.step hkeeps hcall) hkeeps hstart
  have hfile' : t.file = u.2 := hfile
  rw [hfile']
  rcases hend with ⟨-, hsame⟩ | ⟨-, -, -, hbytes⟩
  · exact ⟨metadataIndex, fun byte _ => by rw [hsame]⟩
  · exact ⟨u.1.page, hbytes⟩

/-- A client marks page 1, and a flush writes it. -/
theorem manager_writes_one_page_sample : ∃ t,
    Run bufferStep smallWorld
      [.pin 0 1 .ok (some 0), .mark 0 .ok, .unpin 0 .ok, .flushAll .ok] t ∧
    ∃ page : PageIndex, ∀ byte ∉ accessed page,
      t.file.image.byte byte = (blankStore 2).byte byte := by
  have hhead : listedWorld.manager.writeback = some 0 := rfl
  have hflush : bufferStep listedWorld (.flushAll .ok) ⟨_, _⟩ :=
    buffFlushAll_of_single hhead rfl
  have hrun := Run.cons (smallWorld_pin (Nat.le_refl 1) (by decide))
    (.cons pinnedWorld_mark (.cons markedWorld_unpin
      (.cons hflush (.nil _))))
  have huses : UsesReturned
      [.pin 0 1 .ok (some (0 : Fin 2)), .mark 0 .ok, .unpin 0 .ok,
        .flushAll .ok] :=
    usesReturned_cons rfl rfl (by simp [BufferEvent.uses])
  have hkeeps : ∀ event ∈ ([.pin 0 1 .ok (some 0), .mark 0 .ok, .unpin 0 .ok,
      .flushAll .ok] : List (BufferEvent 2)), event.KeepsPages := by
    simp [BufferEvent.KeepsPages]
  exact ⟨_, hrun, manager_writes_one_page huses hkeeps hrun⟩

end NickDB

import NickDB.Store.Completed
import NickDB.Store.Lifecycle

/-!
# Reopening a store

What a process finds when it opens a store again: a page that was left alone,
through whatever happened to the other pages and stores; another store, through
a handle that was closed; and no page, after a creation that did not write the
metadata.
-/

namespace NickDB

open Runs

variable {η : Type} [DecidableEq η] {p q : Process η} {s t : Stores η}
  {n : List UInt8} {g h : η} {j k : ℕ} {c d : FifoStore Page}
  {value : Page} {events : List (LifeEvent η)}

/-! ## A sample process -/

/-- A file system with a store of one page of zeros. -/
def sampleFiles : FileSystem :=
  { links := Function.update blankProcess.fs.links ([97] ++ storeExt) (some 0)
    images := Function.update blankProcess.fs.images 0 (blankStore 1)
    inodes := 1
    descriptors := [] }

/-- The handle 0 is open on the store. -/
def sampleProcess : Process ℕ :=
  ⟨(sampleFiles.install 0).2,
    Function.update blankProcess.handles 0 ⟨(sampleFiles.install 0).1⟩⟩

theorem exists_sampleStore : ∃ c, Represents (reliable (blankStore 1)) c ∧
    c.contents 1 = some blankPage := by
  have hqueue : (FifoStore.initial : FifoStore Page).queue = [] := rfl
  refine ⟨FifoStore.initial.extend hqueue blankPage,
    ⟨⟨rfl, storeAt_blankStore (by decide)⟩, ?_⟩, rfl⟩
  intro j page hj
  rw [FifoStore.contents_extend, Function.update_apply] at hj
  split at hj
  next heq =>
    rw [heq]
    exact (pageAt_blankStore (le_refl 1) (le_refl 1)).trans (Option.some.inj hj)
  next => cases hj

theorem exists_sampleStores : ∃ (s : Stores ℕ) (c : FifoStore Page),
    RepresentsStores sampleProcess s ∧ s.names [97] = some 0 ∧
      s.handles 0 = some 0 ∧ s.stores 0 = some c ∧
      c.contents 1 = some blankPage := by
  obtain ⟨c, hc, hpage⟩ := exists_sampleStore
  have hempty : RepresentsStores blankProcess (NamedStores.empty 0) :=
    representsStores_empty fun _ => rfl
  have hextend := hempty.extend (n := [97]) hc
  have hk := NamedStores.isSome_extend (NamedStores.empty 0 : Stores ℕ) [97] c
  exact ⟨_, c, hextend.bind (h := 0) hk, rfl, rfl, rfl, hpage⟩

/-! ## A page that is left alone -/

/-- The call does not free the page or write to it. -/
def StoreEvent.SparesPage (j : ℕ) : StoreEvent → Prop
  | .free index _ => index ≠ Int64.ofNat j
  | .put _ index _ => index ≠ Int64.ofNat j
  | _ => True

/-- The call does not create or remove the store of the name, and on the store
`k` it does not free the page or write to it. -/
def LifeEvent.SparesPage (s : Stores η) (n : List UInt8) (k j : ℕ) :
    LifeEvent η → Prop
  | .create _ m _ _ _ _ => m ≠ n
  | .remove m _ _ => m ≠ n
  | .call h _ event => s.handles h = some k → event.SparesPage j
  | _ => True

/-- Only these calls change a page in use. -/
theorem abstractStep_spares {event : StoreEvent}
    (hc : c.contents j = some value) (hspares : event.SparesPage j)
    (hstep : abstractStep c event d) : d.contents j = some value := by
  have hj : c.InUse j := Option.isSome_of_eq_some hc
  obtain ⟨meaning, hdenotes, hstep⟩ := hstep
  cases hstep with
  | @reuse i rest hqueue src =>
      have hne : j ≠ i := by
        rintro rfl
        exact hj.not_mem_queue (hqueue ▸ List.mem_cons_self)
      rw [FifoStore.contents_reuse, Function.update_of_ne hne, hc]
  | extend hqueue src =>
      have hne : j ≠ c.size := ne_of_lt hj.bounds.2
      rw [FifoStore.contents_extend, Function.update_of_ne hne, hc]
  | @free i hi =>
      cases event with
      | alloc src status index => exact hdenotes.elim
      | free index status =>
          have hne : j ≠ i := by
            rintro rfl
            exact hspares hdenotes.1
          rw [FifoStore.contents_giveBack, Function.update_of_ne hne, hc]
      | get dest index status read => exact hdenotes.elim
      | put src index status => exact hdenotes.elim
  | get hi => exact hc
  | @put i hi src =>
      cases event with
      | alloc src status index => exact hdenotes.elim
      | free index status => exact hdenotes.elim
      | get dest index status read => exact hdenotes.elim
      | put src index status =>
          have hne : j ≠ i := by
            rintro rfl
            exact hspares hdenotes.2.1
          rw [FifoStore.contents_assign, Function.update_of_ne hne, hc]

/-- The store of a name has the page. -/
def HasPage (s : Stores η) (n : List UInt8) (k j : ℕ) (value : Page) : Prop :=
  s.Keeps n k fun c => c.contents j = some value

omit [DecidableEq η] in
/-- What spares the page spares it in the named stores. -/
theorem LifeEvent.SparesPage.denoted {event : LifeEvent η}
    {meaning : NamedStores.Event (List UInt8) η StoreEvent}
    (hspares : event.SparesPage s n k j) (hdenotes : event.Denotes meaning) :
    s.Spares n k (StoreEvent.SparesPage j) meaning := by
  cases event <;> cases meaning <;>
    simp_all [LifeEvent.Denotes, LifeEvent.SparesPage, NamedStores.Spares]

theorem HasPage.step {event : LifeEvent η} (hpage : HasPage s n k j value)
    (hspares : event.SparesPage s n k j) (hstep : storesStep s event t) :
    HasPage t n k j value := by
  obtain ⟨meaning, hdenotes, hstep⟩ := hstep
  exact NamedStores.Keeps.step
    (fun _ _ _ hc he hinner => abstractStep_spares hc he hinner) hpage
    (hspares.denoted hdenotes) hstep

/-- A page in use keeps its contents through every run that does not create or
remove its store and does not free or write the page: whatever happens to other
pages and stores, and however often handles are closed and opened, it is read
back from the store of the same name. -/
theorem stored_page_survives {q₁ q₂ : Process η} {dest read : Page}
    {reports : Bool} {status result : Status} (hrep : RepresentsStores p s)
    (hn : s.names n = some k) (hc : s.stores k = some c)
    (hj : c.contents j = some value) (hrun : Run lifeStep p events q)
    (hlimits : Admissible storesStep
      (fun s event => InUseLimits s event ∧ event.SparesPage s n k j) s events)
    (hopen : lifeStep q (.reopen h n true reports status) q₁)
    (hget : lifeStep q₁
      (.call h [] (.get dest (Int64.ofNat j) result read)) q₂) :
    status = .ok ∧ result = .ok ∧ read = value := by
  have hpage : HasPage s n k j value := ⟨hn, c, hc, hj⟩
  obtain ⟨t, -, hrep', hn', c', hc', hj'⟩ := hrun.simulate
    (R := fun p s => RepresentsStores p s ∧ HasPage s n k j value)
    (fun p s event q hR hguard hstep => by
      obtain ⟨t, hstores, hrep⟩ := hR.1.step hguard.1 hstep
      exact ⟨t, hstores, hrep, hR.2.step hguard.2 hstores⟩)
    ⟨hrep, hpage⟩ hlimits
  obtain ⟨u, hreopen, hrep₁⟩ := hrep'.reopen hopen
  obtain ⟨rfl, hstores, hhandles⟩ := storesStep_reopened hn' hreopen
  obtain ⟨inode, file, hinode, hcall, rfl⟩ := hget
  have hopened := hrep₁.handles h k (by rw [hhandles, Function.update_self])
  obtain rfl := Option.some.inj (hopened.symm.trans hinode)
  have hstore := hrep₁.stores k c' (hstores ▸ hc')
  have hinUse : c'.InUse j := Option.isSome_of_eq_some hj'
  have hresult := hstore.storeAt.get_page (q₁.handles h) hinUse.bounds.1
    hinUse.bounds.2 dest
  obtain ⟨rfl, rfl, -⟩ := get_result_unique hresult hcall
  exact ⟨rfl, rfl, hstore.contents j value hj'⟩

/-- The sample process with these bytes in the file of its store. -/
def sampleWith (image : ByteFile UInt8) : Process ℕ :=
  ⟨sampleProcess.fs.setImage 0 image, sampleProcess.handles⟩

theorem sampleWith_blankStore : sampleWith (blankStore 1) = sampleProcess := by
  simp [sampleWith, sampleProcess, sampleFiles, FileSystem.setImage,
    FileSystem.install]

theorem lifeStep_sampleWith {image image' : ByteFile UInt8}
    {event : StoreEvent}
    (hcall : storeStep ⟨0⟩ (reliable image) event (reliable image')) :
    lifeStep (sampleWith image) (.call 0 [] event) (sampleWith image') := by
  have himage : (sampleWith image).fs.images 0 = image := by
    simp [sampleWith, FileSystem.setImage]
  refine ⟨0, reliable image', rfl, ?_, ?_⟩
  · rw [himage]
    exact hcall
  · simp [sampleWith, FileSystem.setImage]

/-- A second page is allocated, freed and allocated again before the handle is
closed. -/
def sampleReuse : List (LifeEvent ℕ) :=
  [.call 0 [] (.alloc (some (linkPage 0)) .ok 2), .call 0 [] (.free 2 .ok),
    .call 0 [] (.alloc (some (linkPage 0)) .ok 2), .close 0 false .ok]

theorem sampleReuse_spares {s : Stores ℕ} (hh : s.handles 0 = some 0)
    (hc : s.stores 0 = some c) (hsize : c.size = 2) :
    Admissible storesStep
      (fun s event => InUseLimits s event ∧ event.SparesPage s [97] 0 1) s
      sampleReuse := by
  have hroom : ∀ n ≤ 4, pageSize * n < 2 ^ 63 := by
    intro n hn
    simp only [pageSize]
    omega
  have hsrc : some (linkPage 0) ≠ none := Option.some_ne_none _
  refine admissible_cons ⟨⟨rfl, 0, c, hh, hc, hroom _ (by omega), hsrc⟩,
    fun _ => trivial⟩ fun s₁ h₁ => ?_
  obtain ⟨hh₁, c₁, hc₁, hstep₁⟩ := storesStep_called hh hc h₁
  obtain ⟨hused₁, hsize₁⟩ := isAllocated_of_alloc hstep₁
  rw [← hh₁] at hh
  refine admissible_cons ⟨⟨rfl, 0, c₁, hh, hc₁, hroom _ (by omega), hused₁⟩,
    fun _ => ?_⟩ fun s₂ h₂ => ?_
  · exact (by decide : (2 : PageIndex) ≠ Int64.ofNat 1)
  obtain ⟨hh₂, c₂, hc₂, hstep₂⟩ := storesStep_called hh hc₁ h₂
  have hsize₂ := size_of_free hstep₂
  rw [← hh₂] at hh
  refine admissible_cons ⟨⟨rfl, 0, c₂, hh, hc₂, hroom _ (by omega), hsrc⟩,
    fun _ => trivial⟩ fun s₃ h₃ => ?_
  obtain ⟨hh₃, -⟩ := storesStep_called hh hc₂ h₃
  rw [← hh₃] at hh
  have hopen : InUseLimits s₃ (.close 0 false .ok) := by
    simp [InUseLimits, hh]
  exact admissible_cons ⟨hopen, trivial⟩ fun _ _ => admissible_nil

/-- Page 1 of the sample store is read back after the calls on page 2. -/
theorem stored_page_survives_sample : ∃ q q₁ q₂ read,
    Run lifeStep sampleProcess sampleReuse q ∧
      lifeStep q (.reopen 1 [97] true false .ok) q₁ ∧
      lifeStep q₁ (.call 1 [] (.get (linkPage 0) 1 .ok read)) q₂ ∧
      read = blankPage := by
  obtain ⟨s, c, hrep, hn, hh, hc, hpage⟩ := exists_sampleStores
  have hfirst : StoreAt (blankStore 1) 2 [] := storeAt_blankStore (by decide)
  have hsize : c.size = 2 := (hrep.stores 0 c hc).storeAt.size_unique hfirst
  obtain ⟨image₁, image₂, image₃, halloc, hfree, hreuse, -⟩ :=
    hfirst.alloc_freed ⟨0⟩ (by decide) (linkPage 0) (linkPage 0)
  obtain ⟨q, q₁, hclose, hopen, hinode⟩ : ∃ q q₁,
      lifeStep (sampleWith image₃) (.close 0 false .ok) q ∧
        lifeStep q (.reopen 1 [97] true false .ok) q₁ ∧
        q₁.fs.inodeOf (q₁.handles 1).storefd = some 0 :=
    ⟨_, _, ⟨_, rfl, rfl⟩, ⟨_, _, rfl, rfl⟩, rfl⟩
  have hrun : Run lifeStep sampleProcess sampleReuse q := by
    rw [← sampleWith_blankStore]
    exact .cons (lifeStep_sampleWith halloc) (.cons (lifeStep_sampleWith hfree)
      (.cons (lifeStep_sampleWith hreuse) (.cons hclose (.nil q))))
  rcases hcall : getPage (linkPage 0) (some (q₁.handles 1))
    ⟨q₁.fs.images 0, []⟩ 1 with ⟨result, read, file⟩
  obtain ⟨q₂, hget⟩ : ∃ q₂,
      lifeStep q₁ (.call 1 [] (.get (linkPage 0) 1 result read)) q₂ :=
    ⟨_, 0, file, hinode, hcall, rfl⟩
  obtain ⟨-, rfl, hread⟩ := stored_page_survives hrep hn hc hpage hrun
    (sampleReuse_spares hh hc hsize) hopen hget
  exact ⟨q, q₁, q₂, read, hrun, hopen, hget, hread⟩

/-! ## A handle that was closed -/

/-- Every descriptor below this one is open. -/
def IsLowest (fs : FileSystem) (fd : ℤ) : Prop :=
  ∀ n : ℕ, (n : ℤ) < fd → fs.inodeOf n ≠ none

/-- A store that is opened right after a handle was closed gets the descriptor
of that handle exactly if it is the lowest. -/
theorem RepresentsStores.close_reopen {reports₁ reports₂ : Bool}
    {status₁ status₂ : Status} (hrep : RepresentsStores p s)
    (hh : s.handles h = some k) (hn : s.names n = some j) (hgh : g ≠ h)
    (hrun : Run lifeStep p
      [.close h reports₁ status₁, .reopen g n true reports₂ status₂] q) :
    status₂ = .ok ∧ q.fs.inodeOf (q.handles g).storefd = some j ∧
      ((q.handles g).storefd = (q.handles h).storefd ↔
        IsLowest p.fs (p.handles h).storefd) ∧
      ((q.handles g).storefd ≠ (q.handles h).storefd →
        q.fs.inodeOf (q.handles h).storefd = none) := by
  have hopen := hrep.handles h k hh
  obtain ⟨m, hm, -⟩ := FileSystem.exists_lookup hopen
  obtain ⟨p₁, ⟨fs₁, hclose, rfl⟩, hrun⟩ := run_cons_iff.mp hrun
  obtain ⟨q', ⟨store, fs₂, hreopen, rfl⟩, hnil⟩ := run_cons_iff.mp hrun
  obtain rfl := run_nil_iff.mp hnil
  rw [FileSystem.closeBacking_of_open hopen] at hclose
  obtain ⟨-, rfl⟩ := Prod.mk.inj hclose
  have hlink : (p.fs.release (p.handles h).storefd).links (n ++ storeExt) =
      some j := (hrep.names n).trans hn
  rw [FileSystem.openBacking_of_link hlink] at hreopen
  obtain ⟨rfl, rfl, rfl⟩ : Status.ok = status₂ ∧
      ⟨((p.fs.release (p.handles h).storefd).install j).1⟩ = store ∧
      ((p.fs.release (p.handles h).storefd).install j).2 = fs₂ := by
    simpa only [Prod.mk.injEq] using hreopen
  obtain ⟨-, hself, hothers⟩ :=
    @FileSystem.inodeOf_install (p.fs.release (p.handles h).storefd) j
  have hstale : Function.update p.handles g
      ⟨((p.fs.release (p.handles h).storefd).install j).1⟩ h = p.handles h :=
    Function.update_of_ne hgh.symm _ _
  refine ⟨rfl, by simpa using hself, ?_, ?_⟩
  · simp only [hstale, Function.update_self]
    simp only [FileSystem.install, FileSystem.release, hm, Int.toNat_natCast,
      Int.ofNat_inj, HandleTable.lowestFree_release_iff, IsLowest,
      FileSystem.inodeOf_ofNat, Int.ofNat_lt, Option.isSome_iff_ne_none]
  · simp only [hstale, Function.update_self]
    intro hne
    rw [hothers _ hne.symm]
    exact (FileSystem.inodeOf_release hopen).1

/-- `close_backing` leaves the descriptor in the handle, and the next store that
is opened gets it exactly if all lower descriptors are open.  Then a second
`close_backing` of the old handle succeeds and closes the other store;
otherwise it fails. -/
theorem close_backing_twice {reports₁ reports₂ : Bool}
    {status₁ status₂ : Status} (hrep : RepresentsStores p s)
    (hh : s.handles h = some k) (hn : s.names n = some j) (hgh : g ≠ h)
    (hrun : Run lifeStep p
      [.close h reports₁ status₁, .reopen g n true reports₂ status₂] q) :
    status₂ = .ok ∧ q.fs.inodeOf (q.handles g).storefd = some j ∧
      (IsLowest p.fs (p.handles h).storefd →
        ∃ fs, q.fs.closeBacking (some (q.handles h)) false = (.ok, fs) ∧
          fs.inodeOf (q.handles g).storefd = none) ∧
      (¬IsLowest p.fs (p.handles h).storefd →
        ∀ reports, q.fs.closeBacking (some (q.handles h)) reports =
          (.badClose, q.fs)) := by
  obtain ⟨hstatus, hopen, hsame, hother⟩ :=
    hrep.close_reopen hh hn hgh hrun
  refine ⟨hstatus, hopen, ?_, ?_⟩
  · intro hlowest
    have hfd := hsame.mpr hlowest
    have hstale : q.fs.inodeOf (q.handles h).storefd = some j := hfd ▸ hopen
    refine ⟨_, FileSystem.closeBacking_of_open hstale, ?_⟩
    rw [hfd]
    exact (FileSystem.inodeOf_release hstale).1
  · intro hlowest reports
    exact FileSystem.closeBacking_of_closed
      (hother fun heq => hlowest (hsame.mp heq))

theorem close_backing_twice_sample : ∃ q fs,
    Run lifeStep sampleProcess
      [.close 0 false .ok, .reopen 1 [97] true false .ok] q ∧
      q.fs.closeBacking (some (q.handles 0)) false = (.ok, fs) ∧
      fs.inodeOf (q.handles 1).storefd = none := by
  obtain ⟨s, c, hrep, hn, hh, -, -⟩ := exists_sampleStores
  obtain ⟨q, hrun⟩ : ∃ q, Run lifeStep sampleProcess
      [.close 0 false .ok, .reopen 1 [97] true false .ok] q :=
    ⟨_, .cons ⟨_, rfl, rfl⟩ (.cons ⟨_, _, rfl, rfl⟩ (.nil _))⟩
  have hlowest : IsLowest sampleProcess.fs
      (sampleProcess.handles 0).storefd := by
    intro n hn
    have hzero : (sampleProcess.handles 0).storefd = 0 := rfl
    omega
  obtain ⟨-, -, htwice, -⟩ :=
    close_backing_twice hrep hh hn (show 1 ≠ 0 by decide) hrun
  obtain ⟨fs, hclose, hclosed⟩ := htwice hlowest
  exact ⟨q, fs, hrun, hclose, hclosed⟩

/-! ## A creation that did not write the metadata -/

/-- The first transfer moves less than a page. -/
def IsIncomplete (schedule : List Transfer) : Prop :=
  (schedule.headD .full).count pageSize ≠ some pageSize

/-- The status that the call returned. -/
def StoreEvent.status : StoreEvent → Status
  | .alloc _ status _ => status
  | .free _ status => status
  | .get _ _ status _ => status
  | .put _ _ status => status

/-- The call is one of `put_page`. -/
def StoreEvent.IsPut : StoreEvent → Prop
  | .put _ _ _ => True
  | _ => False

/-- Until a page is written, no page can be allocated, freed or read, whatever
the transfers do: every such call fails and leaves the file as it is. -/
def IsUnusable (image : ByteFile UInt8) : Prop :=
  ∀ store schedule events file,
    Run (storeStep store) ⟨image, schedule⟩ events file →
    (∀ event ∈ events, ¬event.IsPut) →
    file.image = image ∧ ∀ event ∈ events, event.status ≠ .ok

variable {image : ByteFile UInt8} {schedule : List Transfer}

theorem pread_of_length_lt {file : StoreFile}
    (hlength : file.image.length < pageSize) (dest : Page)
    (offset : ByteOffset) : (pread file dest offset).1 ≠ pageSize := by
  rw [pread]
  split
  next => simp
  next =>
    cases hcount : file.nextTransfer.count
        (min pageSize (file.image.length - position offset)) with
    | none => simp [hcount]
    | some moved =>
        have hmoved := Transfer.count_le hcount
        simp only [hcount]
        omega

/-- One call on a file that is shorter than a page. -/
theorem storeStep_of_length_lt {store : Backing} {file file' : StoreFile}
    {event : StoreEvent} (hlength : file.image.length < pageSize)
    (hput : ¬event.IsPut) (hcall : storeStep store file event file') :
    file'.image = file.image ∧ event.status ≠ .ok := by
  cases event with
  | alloc src status index =>
      have hread := pread_of_length_lt hlength blankPage (indexToOffset 0)
      have himage := pread_image file blankPage (indexToOffset 0)
      simp only [storeStep, allocPage, reduceCtorEq, if_false, hread, ne_eq,
        not_false_eq_true, if_true, Prod.mk.injEq] at hcall
      obtain ⟨rfl, -, rfl⟩ := hcall
      exact ⟨himage, (by decide : Status.badRead ≠ .ok)⟩
  | free index status =>
      have hread := pread_of_length_lt hlength blankPage (indexToOffset 0)
      have himage := pread_image file blankPage (indexToOffset 0)
      simp only [storeStep, freePage, reduceCtorEq, if_false, hread, ne_eq,
        not_false_eq_true, if_true] at hcall
      split at hcall
      next =>
        obtain ⟨rfl, rfl⟩ := Prod.mk.inj hcall
        exact ⟨rfl, (by decide : Status.metaPage ≠ .ok)⟩
      next =>
        obtain ⟨rfl, rfl⟩ := Prod.mk.inj hcall
        exact ⟨himage, (by decide : Status.badRead ≠ .ok)⟩
  | get dest index status read =>
      have hread := pread_of_length_lt hlength dest (indexToOffset index)
      have himage := pread_image file dest (indexToOffset index)
      simp only [storeStep, getPage, reduceCtorEq, if_false, hread, ne_eq,
        not_false_eq_true, if_true] at hcall
      split at hcall
      next =>
        obtain ⟨rfl, -, rfl⟩ : Status.metaPage = status ∧ dest = read ∧
            file = file' := by simpa only [Prod.mk.injEq] using hcall
        exact ⟨rfl, (by decide : Status.metaPage ≠ .ok)⟩
      next =>
        split at hcall
        next =>
          obtain ⟨rfl, -, rfl⟩ : Status.badSeek = status ∧ dest = read ∧
              file = file' := by simpa only [Prod.mk.injEq] using hcall
          exact ⟨rfl, (by decide : Status.badSeek ≠ .ok)⟩
        next =>
          simp only [Prod.mk.injEq] at hcall
          obtain ⟨rfl, -, rfl⟩ := hcall
          exact ⟨himage, (by decide : Status.badRead ≠ .ok)⟩
  | put src index status => exact absurd trivial hput

theorem isUnusable_of_length_lt (hlength : image.length < pageSize) :
    IsUnusable image := by
  intro store schedule events file hrun
  generalize hstart : StoreFile.mk image schedule = start at hrun
  obtain rfl : image = start.image := by rw [← hstart]
  clear hstart
  intro hputs
  induction hrun with
  | nil s => exact ⟨rfl, fun event hevent => absurd hevent List.not_mem_nil⟩
  | @cons s t u event events hcall _ ih =>
      obtain ⟨himage, hstatus⟩ := storeStep_of_length_lt hlength
        (hputs event List.mem_cons_self) hcall
      obtain ⟨hlast, hrest⟩ := ih (himage ▸ hlength)
        fun e he => hputs e (List.mem_cons_of_mem event he)
      refine ⟨hlast.trans himage, fun e he => ?_⟩
      rcases List.mem_cons.mp he with rfl | he
      · exact hstatus
      · exact hrest e he

theorem pwrite_incomplete (hless : IsIncomplete schedule) (src : Page) :
    (pwrite ⟨ByteFile.empty, schedule⟩ src (pageOffset 0)).1 ≠ pageSize ∧
      (pwrite ⟨ByteFile.empty, schedule⟩ src (pageOffset 0)).2.image.length <
        pageSize := by
  have hpos : 0 < pageSize := by decide
  rw [pwrite, if_neg (not_pageOffset_neg (by decide))]
  simp only [StoreFile.nextTransfer, position_pageOffset (k := 0) (by decide)]
  cases hcount : (schedule.headD .full).count pageSize with
  | none => exact ⟨by simp, hpos⟩
  | some moved =>
      have hne : moved ≠ pageSize := fun heq => hless (heq ▸ hcount)
      have hle : moved ≤ pageSize := Transfer.count_le hcount
      refine ⟨Int.ofNat_inj.not.mpr hne, ?_⟩
      simp only [ByteFile.write, ByteFile.empty]
      split <;> omega

/-- The file after an incomplete creation is shorter than a page. -/
theorem createNewBacking_incomplete {fd : ℤ} (hfd : fd ≠ -1)
    (hless : IsIncomplete schedule) :
    ∃ file, createNewBacking fd schedule = (.badWrite, file) ∧
      file.image.length < pageSize := by
  obtain ⟨hwritten, hlength⟩ := pwrite_incomplete hless freshMetadata
  refine ⟨_, ?_, hlength⟩
  simp only [createNewBacking, hfd, if_false, indexToOffset_zero]
  rw [← freshMetadata, if_pos hwritten]

/-- `create_new_backing` that does not write a whole metadata page fails and
keeps no descriptor, but the store that had the name is lost: the name can be
opened, and then no page can be allocated, freed or read until `put_page` has
written one. -/
theorem create_new_backing_incomplete {fs fs₁ fs₂ : FileSystem}
    {store₀ store₁ store₂ store₃ : Backing} {reports₁ reports₂ : Bool}
    {status₁ status₂ : Status} (hless : IsIncomplete schedule)
    (hcreate : fs.createNewBacking n store₀ true schedule reports₁ =
      (status₁, store₁, fs₁))
    (hopen : fs₁.openBacking n store₂ true reports₂ = (status₂, store₃, fs₂)) :
    status₁ = .badWrite ∧ (∀ fd, fs₁.inodeOf fd = fs.inodeOf fd) ∧
      status₂ = .ok ∧ ∃ inode, fs₂.inodeOf store₃.storefd = some inode ∧
        (∀ old, fs.links (n ++ storeExt) = some old → inode = old) ∧
        IsUnusable (fs₂.images inode) := by
  obtain ⟨inode, opened, hfile⟩ :
      ∃ inode opened, fs.emptyFile (n ++ storeExt) = (inode, opened) :=
    ⟨_, _, rfl⟩
  obtain ⟨file, hfailed, hlength⟩ :=
    createNewBacking_incomplete (@FileSystem.install_ne_neg_one opened inode)
      hless
  obtain ⟨hlink, -, hsame, hold⟩ := FileSystem.emptyFile_spec hfile
  obtain ⟨hfree, hself, hothers⟩ := @FileSystem.inodeOf_install opened inode
  rw [FileSystem.createNewBacking_granted hfile] at hcreate
  simp only [hfailed] at hcreate
  obtain ⟨rfl, -, hclosed⟩ : Status.badWrite = status₁ ∧
      ⟨(opened.install inode).1⟩ = store₁ ∧
      ((opened.install inode).2.setImage inode file.image).release
        (opened.install inode).1 = fs₁ := by
    simpa using hcreate
  have hlink₁ : fs₁.links (n ++ storeExt) = some inode := hclosed ▸ hlink
  have himage : fs₁.images inode = file.image := by
    rw [← hclosed]
    exact Function.update_self ..
  have hdescriptors : ∀ fd, fs₁.inodeOf fd = fs.inodeOf fd := by
    intro fd
    rw [← hclosed, ← hsame]
    obtain ⟨hreleased, hkept⟩ := @FileSystem.inodeOf_release
      ((opened.install inode).2.setImage inode file.image) inode
      (opened.install inode).1 hself
    by_cases hfd : fd = (opened.install inode).1
    · rw [hfd, hreleased, hfree]
    · rw [hkept fd hfd]
      exact hothers fd hfd
  rw [FileSystem.openBacking_of_link hlink₁] at hopen
  obtain ⟨rfl, rfl, rfl⟩ : Status.ok = status₂ ∧
      ⟨(fs₁.install inode).1⟩ = store₃ ∧ (fs₁.install inode).2 = fs₂ := by
    simpa only [Prod.mk.injEq] using hopen
  refine ⟨rfl, hdescriptors, rfl, inode, ?_, hold, ?_⟩
  · exact (@FileSystem.inodeOf_install fs₁ inode).2.1
  · apply isUnusable_of_length_lt
    exact (congrArg ByteFile.length himage).trans_lt hlength

theorem create_new_backing_incomplete_sample : ∃ fs₁ fs₂ store inode,
    sampleFiles.createNewBacking [97] ⟨0⟩ true [.failed] false =
        (.badWrite, ⟨0⟩, fs₁) ∧
      fs₁.openBacking [97] ⟨0⟩ true false = (.ok, store, fs₂) ∧
      fs₂.inodeOf store.storefd = some inode ∧
      IsUnusable (fs₂.images inode) := by
  obtain ⟨fs₁, hcreate⟩ : ∃ fs₁,
      sampleFiles.createNewBacking [97] ⟨0⟩ true [.failed] false =
        (.badWrite, ⟨0⟩, fs₁) := ⟨_, rfl⟩
  obtain ⟨status, store, fs₂, hopen⟩ : ∃ status store fs₂,
      fs₁.openBacking [97] ⟨0⟩ true false = (status, store, fs₂) :=
    ⟨_, _, _, rfl⟩
  obtain ⟨-, -, rfl, inode, hinode, -, hunusable⟩ :=
    create_new_backing_incomplete
      (show IsIncomplete [.failed] from nofun) hcreate hopen
  exact ⟨fs₁, fs₂, store, inode, hcreate, hopen, hinode, hunusable⟩

end NickDB

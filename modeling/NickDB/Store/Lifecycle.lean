import NickDB.Store.FileSystem
import NickDB.Store.Refinement
import NickDB.Support.NamedStores

/-!
# The life of stores

A process that creates, opens, closes and removes stores by name, and calls the
functions of the page store through the handles it has, refines named stores
with first-in first-out reuse.  Handles may be open on one store at the same
time, and a store may be created again or removed while it is open.
-/

namespace NickDB

open Runs

/-- A process with its `backing` objects, each of which is a handle in `η`. -/
structure Process (η : Type) where
  fs : FileSystem
  handles : η → Backing

/-- One call with what the system did and what it returned. -/
inductive LifeEvent (η : Type)
  | create (h : η) (filename : List UInt8) (granted : Bool)
      (schedule : List Transfer) (reports : Bool) (status : Status)
  | reopen (h : η) (filename : List UInt8) (granted reports : Bool)
      (status : Status)
  | close (h : η) (reports : Bool) (status : Status)
  | remove (filename : List UInt8) (granted : Bool) (status : Status)
  | call (h : η) (schedule : List Transfer) (event : StoreEvent)

/-- Named stores, each a store of pages. -/
abbrev Stores (η : Type) := NamedStores (List UInt8) η (FifoStore Page)

variable {η : Type} [DecidableEq η]

/-- The call of an event takes `p` to `q`. -/
def lifeStep (p : Process η) (event : LifeEvent η) (q : Process η) : Prop :=
  match event with
  | .create h filename granted schedule reports status => ∃ store fs,
      p.fs.createNewBacking filename (p.handles h) granted schedule reports =
        (status, store, fs) ∧ q = ⟨fs, Function.update p.handles h store⟩
  | .reopen h filename granted reports status => ∃ store fs,
      p.fs.openBacking filename (p.handles h) granted reports =
        (status, store, fs) ∧ q = ⟨fs, Function.update p.handles h store⟩
  | .close h reports status => ∃ fs,
      p.fs.closeBacking (some (p.handles h)) reports = (status, fs) ∧
        q = ⟨fs, p.handles⟩
  | .remove filename granted status => ∃ fs,
      p.fs.removeBacking filename granted = (status, fs) ∧ q = ⟨fs, p.handles⟩
  | .call h schedule event => ∃ inode file,
      p.fs.inodeOf (p.handles h).storefd = some inode ∧
        storeStep (p.handles h) ⟨p.fs.images inode, schedule⟩ event file ∧
        q = ⟨p.fs.setImage inode file.image, p.handles⟩

/-- What a call with its result means for the named stores. -/
def LifeEvent.Denotes :
    LifeEvent η → NamedStores.Event (List UInt8) η StoreEvent → Prop
  | .create h n granted _ _ status, .create g m allowed succeeded =>
      h = g ∧ n = m ∧ granted = allowed ∧
        status = if succeeded then .ok else .badFile
  | .reopen h n granted _ status, .reopen g m allowed succeeded =>
      h = g ∧ n = m ∧ granted = allowed ∧
        status = if succeeded then .ok else .badOpen
  | .close h reports status, .close g =>
      h = g ∧ status = if reports then .badClose else .ok
  | .remove n granted status, .remove m allowed succeeded =>
      n = m ∧ granted = allowed ∧
        status = if succeeded then .ok else .badRemove
  | .call h _ event, .call g event' => h = g ∧ event = event'
  | _, _ => False

/-- A step of the named stores that the call denotes. -/
def storesStep (s : Stores η) (event : LifeEvent η) (t : Stores η) : Prop :=
  ∃ meaning, event.Denotes meaning ∧
    NamedStores.Step FifoStore.initial abstractStep s meaning t

/-- The calls considered: handles are used only while they are open, the
transfers succeed, and calls on a store are within its limits. -/
def InUseLimits (s : Stores η) : LifeEvent η → Prop
  | .create _ _ _ schedule _ _ => schedule = []
  | .reopen _ _ _ _ _ => True
  | .close h _ _ => s.handles h ≠ none
  | .remove _ _ _ => True
  | .call h schedule event => schedule = [] ∧
      ∃ k c, s.handles h = some k ∧ s.stores k = some c ∧ InLimits c event

/-- The process represents the named stores.  The open handles have descriptors
of their own. -/
structure RepresentsStores (p : Process η) (s : Stores η) : Prop where
  next : p.fs.inodes = s.next
  names : ∀ n, p.fs.links (n ++ storeExt) = s.names n
  stores : ∀ k c, s.stores k = some c →
    Represents (reliable (p.fs.images k)) c
  handles : ∀ h k, s.handles h = some k →
    p.fs.inodeOf (p.handles h).storefd = some k
  separate : ∀ g h, s.handles g ≠ none → s.handles h ≠ none →
    (p.handles g).storefd = (p.handles h).storefd → g = h

variable {p q : Process η} {fs : FileSystem} {handles : η → Backing}
  {s : Stores η} {n : List UInt8} {h : η} {k : ℕ} {image : ByteFile UInt8}
  {c : FifoStore Page} {granted reports : Bool} {status : Status}
  {schedule : List Transfer} {event : LifeEvent η}

omit [DecidableEq η] in
/-- No name ends in `.store` yet. -/
theorem representsStores_empty
    (hnone : ∀ n, p.fs.links (n ++ storeExt) = none) :
    RepresentsStores p (NamedStores.empty p.fs.inodes) where
  next := rfl
  names := hnone
  stores := fun _ _ h => nomatch h
  handles := fun _ _ h => nomatch h
  separate := fun _ _ h => absurd rfl h

/-! ## The changes to the files and the handles -/

omit [DecidableEq η] in
theorem RepresentsStores.replace (hrep : RepresentsStores ⟨fs, handles⟩ s)
    (hk : (s.stores k).isSome) (hc : Represents (reliable image) c) :
    RepresentsStores ⟨fs.setImage k image, handles⟩ (s.replace hk c) where
  next := hrep.next
  names := hrep.names
  stores := by
    intro j d hd
    by_cases hjk : j = k
    · subst hjk
      simp only [NamedStores.replace, Function.update_self] at hd
      obtain rfl := Option.some.inj hd
      simpa [FileSystem.setImage] using hc
    · simp only [NamedStores.replace, Function.update_of_ne hjk] at hd
      simpa [FileSystem.setImage, hjk] using hrep.stores j d hd
  handles := hrep.handles
  separate := hrep.separate

/-- A handle gets a new descriptor. -/
theorem RepresentsStores.bind (hrep : RepresentsStores ⟨fs, handles⟩ s)
    (hk : (s.stores k).isSome) :
    RepresentsStores
      ⟨(fs.install k).2, Function.update handles h ⟨(fs.install k).1⟩⟩
      (s.bind h hk) := by
  obtain ⟨hfree, hself, hothers⟩ := @FileSystem.inodeOf_install fs k
  -- an open descriptor is not the new one
  have hne : ∀ g, s.handles g ≠ none →
      (handles g).storefd ≠ (fs.install k).1 := by
    intro g hg heq
    obtain ⟨j, hj⟩ := Option.ne_none_iff_exists'.mp hg
    have hopen : fs.inodeOf (handles g).storefd = some j := hrep.handles g j hj
    rw [heq, hfree] at hopen
    cases hopen
  refine ⟨hrep.next, hrep.names, hrep.stores, ?_, ?_⟩
  · intro g j hj
    by_cases hgh : g = h
    · subst hgh
      simp only [NamedStores.bind, Function.update_self] at hj
      obtain rfl := Option.some.inj hj
      simpa using hself
    · simp only [NamedStores.bind, Function.update_of_ne hgh] at hj
      simp only [Function.update_of_ne hgh]
      rw [hothers _ (hne g (by simp [hj]))]
      exact hrep.handles g j hj
  · intro f g hf hg heq
    by_cases hfh : f = h <;> by_cases hgh : g = h
    · exact hfh.trans hgh.symm
    · simp only [NamedStores.bind, Function.update_of_ne hgh] at hg
      simp only [hfh, Function.update_self, Function.update_of_ne hgh] at heq
      exact absurd heq.symm (hne g hg)
    · simp only [NamedStores.bind, Function.update_of_ne hfh] at hf
      simp only [hgh, Function.update_self, Function.update_of_ne hfh] at heq
      exact absurd heq (hne f hf)
    · simp only [NamedStores.bind, Function.update_of_ne hfh] at hf
      simp only [NamedStores.bind, Function.update_of_ne hgh] at hg
      simp only [Function.update_of_ne hfh, Function.update_of_ne hgh] at heq
      exact hrep.separate f g hf hg heq

/-- A handle that is open on nothing. -/
theorem RepresentsStores.forget (hrep : RepresentsStores ⟨fs, handles⟩ s)
    (store : Backing) :
    RepresentsStores ⟨fs, Function.update handles h store⟩ (s.closed h) := by
  have hne : ∀ g, (s.closed h).handles g ≠ none → g ≠ h := by
    rintro g hg rfl
    simp [NamedStores.closed] at hg
  refine ⟨hrep.next, hrep.names, hrep.stores, ?_, ?_⟩
  · intro g j hj
    have hgh := hne g (by simp [hj])
    simp only [NamedStores.closed, Function.update_of_ne hgh] at hj
    simp only [Function.update_of_ne hgh]
    exact hrep.handles g j hj
  · intro f g hf hg heq
    have hfh := hne f hf
    have hgh := hne g hg
    simp only [NamedStores.closed, Function.update_of_ne hfh] at hf
    simp only [NamedStores.closed, Function.update_of_ne hgh] at hg
    simp only [Function.update_of_ne hfh, Function.update_of_ne hgh] at heq
    exact hrep.separate f g hf hg heq

/-- A handle whose descriptor is closed. -/
theorem RepresentsStores.release (hrep : RepresentsStores ⟨fs, handles⟩ s)
    (hh : s.handles h = some k) :
    RepresentsStores ⟨fs.release (handles h).storefd, handles⟩
      (s.closed h) := by
  have hrep' : RepresentsStores ⟨fs, handles⟩ (s.closed h) := by
    have hsame := hrep.forget (h := h) (handles h)
    rwa [Function.update_eq_self] at hsame
  obtain ⟨-, hothers⟩ := FileSystem.inodeOf_release (hrep.handles h k hh)
  refine ⟨hrep'.next, hrep'.names, hrep'.stores, ?_, hrep'.separate⟩
  intro g j hj
  have hgh : g ≠ h := by
    rintro rfl
    simp [NamedStores.closed] at hj
  have hg : s.handles g = some j := by
    simpa [NamedStores.closed, hgh] using hj
  have hne : (handles g).storefd ≠ (handles h).storefd := fun heq =>
    hgh (hrep.separate g h (by simp [hg]) (by simp [hh]) heq)
  exact (hothers _ hne).trans (hrep.handles g j hg)

omit [DecidableEq η] in
/-- A new file under a name. -/
theorem RepresentsStores.extend (hrep : RepresentsStores ⟨fs, handles⟩ s)
    (hc : Represents (reliable image) c) :
    RepresentsStores
      ⟨{ fs with
          links := Function.update fs.links (n ++ storeExt) (some fs.inodes)
          images := Function.update fs.images fs.inodes image
          inodes := fs.inodes + 1 }, handles⟩ (s.extend n c) := by
  have hnext : fs.inodes = s.next := hrep.next
  refine ⟨congrArg (fun n => n + 1) hnext, ?_, ?_, hrep.handles,
    hrep.separate⟩
  · intro m
    by_cases hmn : m = n
    · simp [NamedStores.extend, hmn, hnext]
    · have hpath : m ++ storeExt ≠ n ++ storeExt := fun heq =>
        hmn (List.append_cancel_right heq)
      simpa [NamedStores.extend, hmn, hpath] using hrep.names m
  · intro j d hd
    by_cases hj : j = s.next
    · simp only [NamedStores.extend, hj, Function.update_self] at hd
      obtain rfl := Option.some.inj hd
      simpa [hnext, hj] using hc
    · simp only [NamedStores.extend, Function.update_of_ne hj] at hd
      have hj' : j ≠ fs.inodes := hnext ▸ hj
      simpa [hj'] using hrep.stores j d hd

omit [DecidableEq η] in
theorem RepresentsStores.unlink (hrep : RepresentsStores ⟨fs, handles⟩ s) :
    RepresentsStores
      ⟨fs.unlink (n ++ storeExt), handles⟩ (s.unlink n) := by
  refine ⟨hrep.next, ?_, hrep.stores, hrep.handles, hrep.separate⟩
  intro m
  by_cases hmn : m = n
  · simp [NamedStores.unlink, FileSystem.unlink, hmn]
  · have hpath : m ++ storeExt ≠ n ++ storeExt := fun heq =>
      hmn (List.append_cancel_right heq)
    simpa [NamedStores.unlink, FileSystem.unlink, hmn, hpath] using hrep.names m

/-! ## One simulation lemma for each call -/

theorem represents_createdImage :
    Represents (reliable createdImage) FifoStore.initial :=
  represents_created (createNewBacking_reliable (show (0 : ℤ) ≠ -1 by decide))

/-- The file system after a new store was written. -/
theorem createNewBacking_done {inode : ℕ} {opened : FileSystem}
    {store : Backing}
    (hfile : fs.emptyFile (n ++ storeExt) = (inode, opened)) :
    fs.createNewBacking n store true [] reports =
      (.ok, ⟨(opened.install inode).1⟩,
        ((opened.setImage inode createdImage).install inode).2) := by
  rw [FileSystem.createNewBacking_granted hfile]
  simp only [createNewBacking_reliable FileSystem.install_ne_neg_one, if_true]
  rfl

/-- The store that `create_new_backing` makes, before its handle is open. -/
theorem RepresentsStores.emptyFile (hrep : RepresentsStores ⟨fs, handles⟩ s)
    {inode : ℕ} {opened : FileSystem}
    (hfile : fs.emptyFile (n ++ storeExt) = (inode, opened)) (h : η) :
    ∃ t, ∃ hk : (t.stores inode).isSome,
      RepresentsStores ⟨opened.setImage inode createdImage, handles⟩ t ∧
      NamedStores.Step FifoStore.initial abstractStep s (.create h n true true)
        (t.bind h hk) := by
  have hlinks : fs.links (n ++ storeExt) = s.names n := hrep.names n
  rw [FileSystem.emptyFile] at hfile
  cases hn : s.names n with
  | none =>
      simp only [hlinks.trans hn, Prod.mk.injEq] at hfile
      obtain ⟨rfl, rfl⟩ := hfile
      have hnext : fs.inodes = s.next := hrep.next
      have hk := s.isSome_extend n (FifoStore.initial : FifoStore Page)
      have hextend := hrep.extend (n := n) represents_createdImage
      refine ⟨_, hnext ▸ hk, ?_, ?_⟩
      · simpa only [FileSystem.setImage, Function.update_idem] using hextend
      · simp only [hnext]
        exact .createNew h hn
  | some k =>
      simp only [hlinks.trans hn, Prod.mk.injEq] at hfile
      obtain ⟨rfl, rfl⟩ := hfile
      refine ⟨_, s.isSome_replace (s.named n k hn) _, ?_, .createOver h hn⟩
      have hreplaced :=
        hrep.replace (s.named n k hn) represents_createdImage
      simpa only [FileSystem.setImage, Function.update_idem] using hreplaced

theorem RepresentsStores.create (hrep : RepresentsStores p s)
    (hcall : lifeStep p (.create h n granted [] reports status) q) :
    ∃ t, storesStep s (.create h n granted [] reports status) t ∧
      RepresentsStores q t := by
  obtain ⟨store, fs, hresult, rfl⟩ := hcall
  cases granted with
  | false =>
      rw [FileSystem.createNewBacking_refused] at hresult
      obtain ⟨rfl, rfl, rfl⟩ : Status.badFile = status ∧ ⟨-1⟩ = store ∧
          p.fs = fs := by simpa using hresult
      exact ⟨_, ⟨.create h n false false, ⟨rfl, rfl, rfl, rfl⟩,
        .createRefused h n⟩, hrep.forget _⟩
  | true =>
      obtain ⟨inode, opened, hfile⟩ :
          ∃ inode opened, p.fs.emptyFile (n ++ storeExt) = (inode, opened) :=
        ⟨_, _, rfl⟩
      rw [createNewBacking_done hfile] at hresult
      obtain ⟨rfl, rfl, rfl⟩ : Status.ok = status ∧
          ⟨(opened.install inode).1⟩ = store ∧
          ((opened.setImage inode createdImage).install inode).2 = fs := by
        simpa only [Prod.mk.injEq] using hresult
      obtain ⟨t, hk, hrep', hstep⟩ := hrep.emptyFile hfile h
      exact ⟨_, ⟨.create h n true true, ⟨rfl, rfl, rfl, rfl⟩, hstep⟩,
        hrep'.bind hk⟩

omit [DecidableEq η] in
theorem refused_or_missing (h : ¬(granted = true ∧ ∃ k, s.names n = some k)) :
    granted = false ∨ s.names n = none := by
  rw [not_and_or, not_exists] at h
  exact h.imp Bool.eq_false_of_not_eq_true
    Option.eq_none_iff_forall_ne_some.mpr

theorem RepresentsStores.reopen (hrep : RepresentsStores p s)
    (hcall : lifeStep p (.reopen h n granted reports status) q) :
    ∃ t, storesStep s (.reopen h n granted reports status) t ∧
      RepresentsStores q t := by
  obtain ⟨store, fs, hresult, rfl⟩ := hcall
  have hlinks := hrep.names n
  by_cases hopen : granted = true ∧ ∃ k, s.names n = some k
  · obtain ⟨rfl, k, hn⟩ := hopen
    rw [FileSystem.openBacking_of_link (hlinks.trans hn)] at hresult
    obtain ⟨rfl, rfl, rfl⟩ : Status.ok = status ∧
        ⟨(p.fs.install k).1⟩ = store ∧ (p.fs.install k).2 = fs := by
      simpa only [Prod.mk.injEq] using hresult
    exact ⟨_, ⟨.reopen h n true true, ⟨rfl, rfl, rfl, rfl⟩, .reopen h hn⟩,
      hrep.bind (s.named n k hn)⟩
  · have hrefused := refused_or_missing hopen
    rw [FileSystem.openBacking_refused (hlinks ▸ hrefused)] at hresult
    obtain ⟨rfl, rfl, rfl⟩ : Status.badOpen = status ∧ ⟨-1⟩ = store ∧
        p.fs = fs := by simpa only [Prod.mk.injEq] using hresult
    refine ⟨_, ⟨.reopen h n granted false, ⟨rfl, rfl, rfl, rfl⟩, ?_⟩,
      hrep.forget _⟩
    rcases hrefused with rfl | hn
    · exact .reopenRefused h n
    · exact .reopenMissing h granted hn

theorem RepresentsStores.close (hrep : RepresentsStores p s)
    (hopen : s.handles h ≠ none)
    (hcall : lifeStep p (.close h reports status) q) :
    ∃ t, storesStep s (.close h reports status) t ∧ RepresentsStores q t := by
  obtain ⟨fs, hresult, rfl⟩ := hcall
  obtain ⟨k, hh⟩ := Option.ne_none_iff_exists'.mp hopen
  rw [FileSystem.closeBacking_of_open (hrep.handles h k hh)] at hresult
  obtain ⟨rfl, rfl⟩ := Prod.mk.inj hresult
  exact ⟨_, ⟨.close h, ⟨rfl, rfl⟩, .close hh⟩, hrep.release hh⟩

theorem RepresentsStores.remove (hrep : RepresentsStores p s)
    (hcall : lifeStep p (.remove n granted status) q) :
    ∃ t, storesStep s (.remove n granted status) t ∧ RepresentsStores q t := by
  obtain ⟨fs, hresult, rfl⟩ := hcall
  have hlinks := hrep.names n
  by_cases hremove : granted = true ∧ ∃ k, s.names n = some k
  · obtain ⟨rfl, k, hn⟩ := hremove
    rw [FileSystem.removeBacking_of_link (hlinks.trans hn)] at hresult
    obtain ⟨rfl, rfl⟩ := Prod.mk.inj hresult
    exact ⟨_, ⟨.remove n true true, ⟨rfl, rfl, rfl⟩, .remove hn⟩, hrep.unlink⟩
  · have hrefused := refused_or_missing hremove
    rw [FileSystem.removeBacking_refused (hlinks ▸ hrefused)] at hresult
    obtain ⟨rfl, rfl⟩ := Prod.mk.inj hresult
    refine ⟨_, ⟨.remove n granted false, ⟨rfl, rfl, rfl⟩, ?_⟩, hrep⟩
    rcases hrefused with rfl | hn
    · exact .removeRefused n
    · exact .removeMissing granted hn

theorem RepresentsStores.call {event : StoreEvent} (hrep : RepresentsStores p s)
    (hh : s.handles h = some k) (hc : s.stores k = some c)
    (hlimits : InLimits c event) (hcall : lifeStep p (.call h [] event) q) :
    ∃ t, storesStep s (.call h [] event) t ∧ RepresentsStores q t := by
  obtain ⟨inode, file, hinode, hcall, rfl⟩ := hcall
  obtain rfl := Option.some.inj ((hrep.handles h k hh).symm.trans hinode)
  obtain ⟨d, hinner, hd⟩ := (hrep.stores k c hc).step hlimits hcall
  refine ⟨_, ⟨.call h event, ⟨rfl, rfl⟩, .call hh hc hinner⟩, ?_⟩
  exact hrep.replace _ (hd.eq_reliable ▸ hd)

/-- Every call within the limits is a step of the named stores. -/
theorem RepresentsStores.step (hrep : RepresentsStores p s)
    (hlimits : InUseLimits s event) (hcall : lifeStep p event q) :
    ∃ t, storesStep s event t ∧ RepresentsStores q t := by
  cases event with
  | create h n granted schedule reports status =>
      obtain rfl : schedule = [] := hlimits
      exact hrep.create hcall
  | reopen h n granted reports status => exact hrep.reopen hcall
  | close h reports status => exact hrep.close hlimits hcall
  | remove n granted status => exact hrep.remove hcall
  | call h schedule event =>
      obtain ⟨rfl, k, c, hh, hc, hlimits⟩ := hlimits
      exact hrep.call hh hc hlimits hcall

/-- From a file system without stores, every run within the limits is one of
named stores with first-in first-out reuse, and the process represents the
stores it leads to. -/
theorem process_refines_stores {events : List (LifeEvent η)}
    (hnone : ∀ n, p.fs.links (n ++ storeExt) = none)
    (hrun : Run lifeStep p events q)
    (hlimits : Admissible storesStep InUseLimits (NamedStores.empty p.fs.inodes)
      events) :
    ∃ s, Run storesStep (NamedStores.empty p.fs.inodes) events s ∧
      RepresentsStores q s :=
  hrun.simulate (fun _ _ _ _ => RepresentsStores.step)
    (representsStores_empty hnone) hlimits

/-! ## A sample run -/

variable {t : Stores η}

theorem storesStep_created
    (hstep : storesStep s (.create h n true schedule reports status) t) :
    status = .ok ∧ ∃ k, t.names n = some k ∧
      t.handles = Function.update s.handles h (some k) ∧
      t.stores k = some FifoStore.initial := by
  obtain ⟨meaning, hdenotes, hstep⟩ := hstep
  cases hstep with
  | createNew g hn =>
      obtain ⟨rfl, rfl, -, rfl⟩ := hdenotes
      exact ⟨rfl, s.next, by simp [NamedStores.bind, NamedStores.extend], rfl,
        by simp [NamedStores.bind, NamedStores.extend]⟩
  | @createOver m k g hn =>
      obtain ⟨rfl, rfl, -, rfl⟩ := hdenotes
      exact ⟨rfl, k, hn, rfl, by simp [NamedStores.bind, NamedStores.replace]⟩
  | createRefused g m => exact absurd hdenotes.2.2.1 (by decide)
  | reopen g hn => exact hdenotes.elim
  | reopenMissing g granted hn => exact hdenotes.elim
  | reopenRefused g m => exact hdenotes.elim
  | close hh => exact hdenotes.elim
  | remove hn => exact hdenotes.elim
  | removeMissing granted hn => exact hdenotes.elim
  | removeRefused m => exact hdenotes.elim
  | call hh hc hinner => exact hdenotes.elim

/-- A call of the page store through an open handle. -/
theorem storesStep_called {event : StoreEvent} (hh : s.handles h = some k)
    (hc : s.stores k = some c)
    (hstep : storesStep s (.call h schedule event) t) :
    t.handles = s.handles ∧ ∃ d, t.stores k = some d ∧
      abstractStep c event d := by
  obtain ⟨meaning, hdenotes, hstep⟩ := hstep
  cases hstep with
  | createNew g hn => exact hdenotes.elim
  | createOver g hn => exact hdenotes.elim
  | createRefused g m => exact hdenotes.elim
  | reopen g hn => exact hdenotes.elim
  | reopenMissing g granted hn => exact hdenotes.elim
  | reopenRefused g m => exact hdenotes.elim
  | close hg => exact hdenotes.elim
  | remove hn => exact hdenotes.elim
  | removeMissing granted hn => exact hdenotes.elim
  | removeRefused m => exact hdenotes.elim
  | @call g j c' d e hg hc' hinner =>
      obtain ⟨rfl, rfl⟩ := hdenotes
      obtain rfl := Option.some.inj (hh.symm.trans hg)
      obtain rfl := Option.some.inj (hc.symm.trans hc')
      exact ⟨rfl, d, Function.update_self _ _ _, hinner⟩

theorem storesStep_reopened (hn : s.names n = some k)
    (hstep : storesStep s (.reopen h n true reports status) t) :
    status = .ok ∧ t.stores = s.stores ∧
      t.handles = Function.update s.handles h (some k) := by
  obtain ⟨meaning, hdenotes, hstep⟩ := hstep
  cases hstep with
  | createNew g hn => exact hdenotes.elim
  | createOver g hn => exact hdenotes.elim
  | createRefused g m => exact hdenotes.elim
  | @reopen m j g hm =>
      obtain ⟨rfl, rfl, -, rfl⟩ := hdenotes
      obtain rfl := Option.some.inj (hn.symm.trans hm)
      exact ⟨rfl, rfl, rfl⟩
  | reopenMissing g granted hm =>
      obtain ⟨rfl, rfl, -, rfl⟩ := hdenotes
      rw [hn] at hm
      cases hm
  | reopenRefused g m => exact absurd hdenotes.2.2.1 (by decide)
  | close hh => exact hdenotes.elim
  | remove hn => exact hdenotes.elim
  | removeMissing granted hn => exact hdenotes.elim
  | removeRefused m => exact hdenotes.elim
  | call hh hc hinner => exact hdenotes.elim

/-- A process without files. -/
def blankProcess : Process ℕ where
  fs := ⟨fun _ => none, fun _ => ByteFile.empty, 0, []⟩
  handles := fun _ => ⟨0⟩

/-- A store that is created, opened a second time and closed once. -/
def sampleLife : List (LifeEvent ℕ) :=
  [.create 0 [97] true [] false .ok, .reopen 1 [97] true false .ok,
    .close 0 false .ok]

theorem admissible_sampleLife :
    Admissible storesStep InUseLimits (NamedStores.empty 0) sampleLife := by
  refine admissible_cons (show InUseLimits _ _ from rfl) fun t ht => ?_
  refine admissible_cons (show InUseLimits _ _ from trivial) fun u hu => ?_
  refine admissible_cons ?_ fun _ _ => admissible_nil
  obtain ⟨-, k, hn, hcreated, -⟩ := storesStep_created ht
  obtain ⟨-, -, hreopened⟩ := storesStep_reopened hn hu
  simp [InUseLimits, hreopened, hcreated]

theorem process_refines_stores_sample : ∃ q s,
    Run lifeStep blankProcess sampleLife q ∧
      Run storesStep (NamedStores.empty 0) sampleLife s ∧
      RepresentsStores q s := by
  have hrun : ∃ q, Run lifeStep blankProcess sampleLife q :=
    ⟨_, .cons ⟨_, _, rfl, rfl⟩ (.cons ⟨_, _, rfl, rfl⟩
      (.cons ⟨_, rfl, rfl⟩ (.nil _)))⟩
  obtain ⟨q, hrun⟩ := hrun
  obtain ⟨s, hstores, hrep⟩ := process_refines_stores (fun _ => rfl) hrun
    admissible_sampleLife
  exact ⟨q, s, hrun, hstores, hrep⟩

end NickDB

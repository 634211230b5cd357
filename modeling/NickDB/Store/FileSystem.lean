import NickDB.Store.Session
import NickDB.Support.HandleTable

/-!
# Creating, opening, closing and removing stores

The other functions of `fileio.c`, and the system calls under them: a directory
of names, the files they are links to, and the descriptors of the process.  A
file that is removed loses its name and keeps its contents for the descriptors
that are open on it.  A new descriptor is the lowest that is free.

The system may refuse to open or to remove a file that is there, and it may
report an error when it closes one; the descriptor is free in either case.
-/

namespace NickDB

/-- The file that each name is a link to, the contents of the files, and the
files behind the open descriptors.  Files are numbered as they are created;
`inodes` is the number of the next one. -/
structure FileSystem where
  links : List UInt8 → Option ℕ
  images : ℕ → ByteFile UInt8
  inodes : ℕ
  descriptors : HandleTable ℕ

namespace FileSystem

/-! ## System calls -/

/-- The file behind a descriptor. -/
def inodeOf (fs : FileSystem) (fd : ℤ) : Option ℕ :=
  if fd < 0 then none else fs.descriptors.lookup fd.toNat

/-- Other contents of a file. -/
def setImage (fs : FileSystem) (inode : ℕ) (image : ByteFile UInt8) :
    FileSystem :=
  { fs with images := Function.update fs.images inode image }

/-- A new descriptor for a file. -/
def install (fs : FileSystem) (inode : ℕ) : ℤ × FileSystem :=
  (fs.descriptors.lowestFree,
    { fs with descriptors := fs.descriptors.install inode })

/-- The descriptor is free. -/
def release (fs : FileSystem) (fd : ℤ) : FileSystem :=
  { fs with descriptors := fs.descriptors.release fd.toNat }

/-- The empty file of a name, which is truncated or created. -/
def emptyFile (fs : FileSystem) (path : List UInt8) : ℕ × FileSystem :=
  match fs.links path with
  | some inode => (inode, fs.setImage inode ByteFile.empty)
  | none =>
      (fs.inodes,
        { fs with
          links := Function.update fs.links path (some fs.inodes)
          images := Function.update fs.images fs.inodes ByteFile.empty
          inodes := fs.inodes + 1 })

/-- `open(path, O_CREAT | O_TRUNC | O_RDWR, S_IRWXU)`. -/
def openCreate (fs : FileSystem) (path : List UInt8) (granted : Bool) :
    ℤ × FileSystem :=
  if granted then
    let (inode, fs) := fs.emptyFile path
    fs.install inode
  else (-1, fs)

/-- `open(path, O_RDWR)`. -/
def openExisting (fs : FileSystem) (path : List UInt8) (granted : Bool) :
    ℤ × FileSystem :=
  if granted then
    match fs.links path with
    | some inode => fs.install inode
    | none => (-1, fs)
  else (-1, fs)

/-- `close(fd)`. -/
def close (fs : FileSystem) (fd : ℤ) (reports : Bool) : ℤ × FileSystem :=
  match fs.inodeOf fd with
  | none => (-1, fs)
  | some _ => (if reports then -1 else 0, fs.release fd)

/-- The name is not a link any more. -/
def unlink (fs : FileSystem) (path : List UInt8) : FileSystem :=
  { fs with links := Function.update fs.links path none }

/-- `remove(path)`. -/
def remove (fs : FileSystem) (path : List UInt8) (granted : Bool) :
    ℤ × FileSystem :=
  if granted then
    match fs.links path with
    | some _ => (0, fs.unlink path)
    | none => (-1, fs)
  else (-1, fs)

/-- `pwrite(fd, src, PAGESIZE, offset)`. -/
def pwriteAt (fs : FileSystem) (fd : ℤ) (src : Page) (offset : ByteOffset)
    (schedule : List Transfer) : ℤ × FileSystem :=
  match fs.inodeOf fd with
  | none => (-1, fs)
  | some inode =>
      let (written, file) := pwrite ⟨fs.images inode, schedule⟩ src offset
      (written, fs.setImage inode file.image)

/-! ## The functions of the source -/

/-- `close_backing`. -/
def closeBacking (fs : FileSystem) (store : Option Backing) (reports : Bool) :
    Status × FileSystem :=
  match store with
  | none => (.err, fs)
  | some store =>
      let (result, fs) := fs.close store.storefd reports
      if result = 0 then (.ok, fs) else (.badClose, fs)

/-- `create_new_backing`: the status, `*store` and the file system. -/
def createNewBacking (fs : FileSystem) (filename : List UInt8) (store : Backing)
    (granted : Bool) (schedule : List Transfer) (reports : Bool) :
    Status × Backing × FileSystem :=
  let storefilename := filename ++ storeExt
  let (storefd, fs) := fs.openCreate storefilename granted
  let store := { store with storefd := storefd }
  if store.storefd = -1 then
    let (_, fs) := fs.closeBacking (some store) reports
    (.badFile, store, fs)
  else
    let metadata := setTail (setHead (setSize blankPage 1) (-1)) (-1)
    let (written, fs) :=
      fs.pwriteAt store.storefd metadata (indexToOffset 0) schedule
    if written ≠ pageSize then
      let (_, fs) := fs.closeBacking (some store) reports
      (.badWrite, store, fs)
    else (.ok, store, fs)

/-- `open_backing`. -/
def openBacking (fs : FileSystem) (filename : List UInt8) (store : Backing)
    (granted reports : Bool) : Status × Backing × FileSystem :=
  let storefilename := filename ++ storeExt
  let (storefd, fs) := fs.openExisting storefilename granted
  let store := { store with storefd := storefd }
  if store.storefd = -1 then
    let (_, fs) := fs.closeBacking (some store) reports
    (.badOpen, store, fs)
  else (.ok, store, fs)

/-- `remove_backing`. -/
def removeBacking (fs : FileSystem) (filename : List UInt8) (granted : Bool) :
    Status × FileSystem :=
  let storefilename := filename ++ storeExt
  let (result, fs) := fs.remove storefilename granted
  if result ≠ 0 then (.badRemove, fs) else (.ok, fs)

/-! ## Descriptors -/

variable {fs : FileSystem} {filename path : List UInt8} {store : Backing}
  {inode n : ℕ} {granted reports : Bool} {schedule : List Transfer} {fd : ℤ}

@[simp] theorem inodeOf_ofNat :
    fs.inodeOf (n : ℤ) = fs.descriptors.lookup n := by
  rw [inodeOf, if_neg (by omega), Int.toNat_natCast]

@[simp] theorem inodeOf_neg_one : fs.inodeOf (-1) = none :=
  if_pos (by decide)

/-- A descriptor that is open is a number of the table. -/
theorem exists_lookup (h : fs.inodeOf fd = some inode) :
    ∃ n : ℕ, fd = n ∧ fs.descriptors.lookup n = some inode := by
  rw [inodeOf] at h
  split at h
  next => cases h
  next hfd => exact ⟨fd.toNat, by omega, h⟩

@[simp] theorem inodeOf_setImage (image : ByteFile UInt8) :
    (fs.setImage inode image).inodeOf fd = fs.inodeOf fd := rfl

/-- A new descriptor was not open before and no other one changes. -/
theorem inodeOf_install :
    fs.inodeOf (fs.install inode).1 = none ∧
      (fs.install inode).2.inodeOf (fs.install inode).1 = some inode ∧
      ∀ fd ≠ (fs.install inode).1,
        (fs.install inode).2.inodeOf fd = fs.inodeOf fd := by
  refine ⟨?_, ?_, ?_⟩
  · simp [install, HandleTable.lookup_lowestFree]
  · simp [install]
  · intro fd hfd
    simp only [inodeOf]
    split
    next => rfl
    next hneg =>
      apply HandleTable.lookup_install_of_ne
      intro heq
      apply hfd
      simp only [install]
      omega

theorem install_ne_neg_one : (fs.install inode).1 ≠ -1 := by
  simp only [install]
  omega

/-- A descriptor that is closed is free and no other one changes. -/
theorem inodeOf_release (h : fs.inodeOf fd = some inode) :
    (fs.release fd).inodeOf fd = none ∧
      ∀ fd' ≠ fd, (fs.release fd).inodeOf fd' = fs.inodeOf fd' := by
  obtain ⟨n, rfl, -⟩ := exists_lookup h
  constructor
  · simp [release]
  · intro fd' hfd'
    simp only [inodeOf]
    split
    next => rfl
    next hneg =>
      apply HandleTable.lookup_release_of_ne
      omega

theorem closeBacking_of_open (h : fs.inodeOf store.storefd = some inode) :
    fs.closeBacking (some store) reports =
      (if reports then .badClose else .ok, fs.release store.storefd) := by
  cases reports with
  | false => simp [closeBacking, close, h]
  | true => simp [closeBacking, close, h]

theorem closeBacking_of_closed (h : fs.inodeOf store.storefd = none) :
    fs.closeBacking (some store) reports = (.badClose, fs) := by
  simp [closeBacking, close, h]

theorem openBacking_of_link
    (h : fs.links (filename ++ storeExt) = some inode) :
    fs.openBacking filename store true reports =
      (.ok, ⟨(fs.install inode).1⟩, (fs.install inode).2) := by
  simp [openBacking, openExisting, h, install_ne_neg_one]

theorem openBacking_refused
    (h : granted = false ∨ fs.links (filename ++ storeExt) = none) :
    fs.openBacking filename store granted reports =
      (.badOpen, ⟨-1⟩, fs) := by
  have hopen : fs.openExisting (filename ++ storeExt) granted = (-1, fs) := by
    rcases h with rfl | h
    · rfl
    · simp [openExisting, h]
  simp [openBacking, hopen, closeBacking, close]

theorem removeBacking_of_link
    (h : fs.links (filename ++ storeExt) = some inode) :
    fs.removeBacking filename true =
      (.ok, fs.unlink (filename ++ storeExt)) := by
  simp [removeBacking, remove, h]

theorem removeBacking_refused
    (h : granted = false ∨ fs.links (filename ++ storeExt) = none) :
    fs.removeBacking filename granted = (.badRemove, fs) := by
  rcases h with rfl | h
  · rfl
  · simp [removeBacking, remove, h]

/-! ## The two levels of the model -/

/-- What `open_backing` returns is determined by what `open` does. -/
theorem openBacking_eq :
    some ((fs.openBacking filename store granted reports).1,
      (fs.openBacking filename store granted reports).2.1) =
    NickDB.openBacking (fun path => (fs.openExisting path granted).1) filename
      (some store) := by
  simp only [openBacking, NickDB.openBacking]
  split
  next => simp
  next => simp

theorem createNewBacking_refused :
    fs.createNewBacking filename store false schedule reports =
      (.badFile, ⟨-1⟩, fs) := by
  simp [createNewBacking, openCreate, closeBacking, close]

/-- The file that `open` truncates or creates. -/
theorem emptyFile_spec {opened : FileSystem}
    (hfile : fs.emptyFile path = (inode, opened)) :
    opened.links path = some inode ∧
      opened.images inode = ByteFile.empty ∧
      (∀ fd, opened.inodeOf fd = fs.inodeOf fd) ∧
      ∀ old, fs.links path = some old → inode = old := by
  rw [emptyFile] at hfile
  cases hlink : fs.links path with
  | none =>
      simp only [hlink, Prod.mk.injEq] at hfile
      obtain ⟨rfl, rfl⟩ := hfile
      refine ⟨by simp, by simp, fun _ => rfl, ?_⟩
      intro old h
      cases h
  | some old =>
      simp only [hlink, Prod.mk.injEq] at hfile
      obtain ⟨rfl, rfl⟩ := hfile
      exact ⟨hlink, by simp [setImage], fun _ => rfl,
        fun _ h => Option.some.inj h⟩

/-- `create_new_backing` writes to the file of the name what it writes to an
open file, and keeps the descriptor if that has succeeded. -/
theorem createNewBacking_granted {opened : FileSystem}
    (hfile : fs.emptyFile (filename ++ storeExt) = (inode, opened)) :
    fs.createNewBacking filename store true schedule reports =
      let (fd, fs) := opened.install inode
      let (status, file) := NickDB.createNewBacking fd schedule
      let fs := fs.setImage inode file.image
      if status = .ok then (.ok, ⟨fd⟩, fs)
      else (.badWrite, ⟨fd⟩, fs.release fd) := by
  have himage : (opened.install inode).2.images inode = ByteFile.empty :=
    (emptyFile_spec hfile).2.1
  have hfd := @install_ne_neg_one opened inode
  obtain ⟨-, hopen, -⟩ := @inodeOf_install opened inode
  simp only [createNewBacking, openCreate, hfile, if_true, hfd, if_false,
    pwriteAt, hopen, himage, NickDB.createNewBacking]
  split
  next =>
    rw [closeBacking_of_open (by simpa using hopen)]
    simp
  next => simp

end FileSystem

end NickDB

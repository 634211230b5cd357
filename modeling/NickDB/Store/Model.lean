import NickDB.Store.Posix
import NickDB.Support.Words

/-!
# The page store

The functions of `fileio.c`.  Page 0 is the metadata page: it opens with the
number of pages and the byte offsets of the first and the last free page.  A
free page opens with the byte offset of the next free page, and `-1` ends the
list.

A call takes the open file and returns it, next to its status and whatever it
writes through its out-parameters.  Every early exit of the source is a branch
of its own, in the order of the source.
-/

namespace NickDB

/-- `backing`: the handle of an open store. -/
structure Backing where
  storefd : ℤ
  deriving DecidableEq, Repr

/-! ## Fields of the metadata page and of a free page -/

/-- `metadata->size`. -/
def metaSize (metadata : Page) : PageIndex :=
  Words.load metadata 0 (by decide)

/-- `metadata->freelist_head.offset`. -/
def freelistHead (metadata : Page) : ByteOffset :=
  Words.load metadata 8 (by decide)

/-- `metadata->freelist_tail.offset`. -/
def freelistTail (metadata : Page) : ByteOffset :=
  Words.load metadata 16 (by decide)

/-- Assignment to `metadata->size`. -/
def setSize (metadata : Page) (size : PageIndex) : Page :=
  Words.store metadata 0 size

/-- Assignment to `metadata->freelist_head.offset`. -/
def setHead (metadata : Page) (offset : ByteOffset) : Page :=
  Words.store metadata 8 offset

/-- Assignment to `metadata->freelist_tail.offset`. -/
def setTail (metadata : Page) (offset : ByteOffset) : Page :=
  Words.store metadata 16 offset

/-- `freepage->offset`, the link word at the start of a free page. -/
def linkWord (page : Page) : ByteOffset := Words.load page 0 (by decide)

/-- A zeroed page with the link word set, as `free_page` writes it. -/
def linkPage (offset : ByteOffset) : Page := Words.store blankPage 0 offset

/-! ## Page addressing -/

/-- `index_to_offset`.  A product that does not fit is undefined in C, where an
optimizing compiler may reduce the test for offset 0 to one for index 0; it is
read as wrapping around, as an unoptimized build computes it. -/
def indexToOffset (index : PageIndex) : ByteOffset := index * 4096

/-- `offset_to_index`. -/
def offsetToIndex (offset : ByteOffset) : PageIndex :=
  if offset = 0 then 0 else offset / 4096

/-! ## Creating and opening a store -/

/-- `create_new_backing`, given the descriptor `open` returned; `open` has
truncated the file.  The file name only serves to build the argument of
`open`. -/
def createNewBacking (storefd : ℤ) (schedule : List Transfer) :
    Status × StoreFile :=
  let file : StoreFile := ⟨ByteFile.empty, schedule⟩
  if storefd = -1 then (.badFile, file)
  else
    let metadata := setTail (setHead (setSize blankPage 1) (-1)) (-1)
    let (written, file) := pwrite file metadata (indexToOffset 0)
    if written ≠ pageSize then (.badWrite, file) else (.ok, file)

/-- `open_backing`: the status and the contents of `*store`, given what `open`
returns for each path.  A descriptor that was not opened is closed again, which
does nothing. -/
def openBacking (opens : List UInt8 → ℤ) (filename : List UInt8)
    (store : Option Backing) : Option (Status × Backing) :=
  let storefilename := filename ++ storeExt
  match store with
  | none => none
  | some store =>
      let store := { store with storefd := opens storefilename }
      if store.storefd = -1 then some (.badOpen, store) else some (.ok, store)

/-! ## Allocating a page -/

/-- The metadata page once its first free page, whose link word is `next`, has
been taken off the list. -/
def popHead (metadata : Page) (next : ByteOffset) : Page :=
  if freelistHead metadata = freelistTail metadata then
    setTail (setHead metadata next) next
  else setHead metadata next

/-- The part of `alloc_page` that takes the head of the list of free pages. -/
def allocRecycled (src : Option Page) (metadata : Page) (file : StoreFile) :
    Status × PageIndex × StoreFile :=
  let offset := freelistHead metadata
  let (read, nextpage, file) := pread file (fun _ : Fin 8 => 0) offset
  if read ≠ 8 then (.badRead, errSet, file)
  else
    let metadata := popHead metadata (Words.load nextpage 0 (by decide))
    let (write, file) :=
      match src with
      | some src => pwrite file src offset
      -- `offset` is a byte offset already; the source converts it once more
      | none => pwrite file blankPage (indexToOffset offset)
    if write ≠ pageSize then (.badWrite, errSet, file)
    else
      let (metaWrite, file) := pwrite file metadata (indexToOffset 0)
      if metaWrite ≠ pageSize then (.badWrite, errSet, file)
      else (.ok, offsetToIndex offset, file)

/-- The part of `alloc_page` that appends a page to the file. -/
def allocAppended (src : Option Page) (metadata : Page) (file : StoreFile) :
    Status × PageIndex × StoreFile :=
  let newpage := metaSize metadata
  let (blankWrite, file) := pwrite file blankPage (indexToOffset newpage)
  if blankWrite ≠ pageSize then (.badWrite, errSet, file)
  else
    let (dataWrite, file) :=
      match src with
      | some src => pwrite file src (indexToOffset newpage)
      | none => ((pageSize : ℤ), file)
    -- this exit stores a status code in the page index
    if dataWrite ≠ pageSize then (.badWrite, Status.err.code, file)
    else
      let metadata := setSize metadata (metaSize metadata + 1)
      let (metaWrite, file) := pwrite file metadata (indexToOffset 0)
      if metaWrite ≠ pageSize then (.badWrite, errSet, file)
      else (.ok, newpage, file)

/-- `alloc_page`: the status, the value left in `*index` and the file. -/
def allocPage (src : Option Page) (store : Option Backing) (file : StoreFile) :
    Status × PageIndex × StoreFile :=
  if store = none then (.noFile, errSet, file)
  else
    let (read, metadata, file) := pread file blankPage (indexToOffset 0)
    if read ≠ pageSize then (.badRead, errSet, file)
    else if freelistHead metadata ≠ emptyList then allocRecycled src metadata file
    else allocAppended src metadata file

/-! ## Freeing a page -/

/-- The part of `free_page` for an empty list of free pages. -/
def freeFirst (metadata : Page) (pageloc : ByteOffset) (file : StoreFile) :
    Status × StoreFile :=
  let metadata := setTail (setHead metadata pageloc) pageloc
  let (freeWrite, file) := pwrite file (linkPage (-1)) pageloc
  if freeWrite ≠ pageSize then (.badWrite, file)
  else
    let (metaWrite, file) := pwrite file metadata (indexToOffset 0)
    if metaWrite ≠ pageSize then (.badWrite, file) else (.ok, file)

/-- The part of `free_page` that appends to the tail of the list. -/
def freeAppended (metadata : Page) (pageloc : ByteOffset) (file : StoreFile) :
    Status × StoreFile :=
  let (oldTail, file) := pwrite file (linkPage pageloc) (freelistTail metadata)
  if oldTail ≠ pageSize then (.badWrite, file)
  else
    let (freeWrite, file) := pwrite file (linkPage (-1)) pageloc
    if freeWrite ≠ pageSize then (.badWrite, file)
    else
      let metadata := setTail metadata pageloc
      let (metaWrite, file) := pwrite file metadata (indexToOffset 0)
      if metaWrite ≠ pageSize then (.badWrite, file) else (.ok, file)

/-- `free_page`. -/
def freePage (store : Option Backing) (file : StoreFile) (index : PageIndex) :
    Status × StoreFile :=
  let pageloc := indexToOffset index
  if pageloc = 0 then (.metaPage, file)
  else if store = none then (.noFile, file)
  else
    let (read, metadata, file) := pread file blankPage (indexToOffset 0)
    if read ≠ pageSize then (.badRead, file)
    else if freelistTail metadata = -1 ∧ freelistHead metadata = -1 then
      freeFirst metadata pageloc file
    else freeAppended metadata pageloc file

/-! ## Reading and writing a page -/

/-- `get_page`: the status, the buffer `dest` and the file. -/
def getPage (dest : Page) (store : Option Backing) (file : StoreFile)
    (index : PageIndex) : Status × Page × StoreFile :=
  let pageloc := indexToOffset index
  if pageloc = 0 then (.metaPage, dest, file)
  else if store = none then (.noFile, dest, file)
  else if lseekFails pageloc then (.badSeek, dest, file)
  else
    let (pageRead, dest, file) := pread file dest (indexToOffset index)
    if pageRead ≠ pageSize then (.badRead, dest, file) else (.ok, dest, file)

/-- `put_page`. -/
def putPage (src : Page) (store : Option Backing) (file : StoreFile)
    (index : PageIndex) : Status × StoreFile :=
  let pageloc := indexToOffset index
  if pageloc = 0 then (.metaPage, file)
  else if store = none then (.noFile, file)
  else if lseekFails pageloc then (.badSeek, file)
  else
    let (pageWrite, file) := pwrite file src (indexToOffset index)
    if pageWrite ≠ pageSize then (.badWrite, file) else (.ok, file)

end NickDB

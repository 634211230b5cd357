import NickDB.Store.Wellformed
import NickDB.Support.Runs

/-!
# Sessions with a page store

The calls a client makes on an open store, each with its arguments and what it
returned, as the steps of a transition system on the open file.
-/

namespace NickDB

/-- One call with its result. -/
inductive StoreEvent
  | alloc (src : Option Page) (status : Status) (index : PageIndex)
  | free (index : PageIndex) (status : Status)
  | get (dest : Page) (index : PageIndex) (status : Status) (read : Page)
  | put (src : Page) (index : PageIndex) (status : Status)

/-- The call of an event takes `file` to `file'`. -/
def storeStep (store : Backing) (file : StoreFile) (event : StoreEvent)
    (file' : StoreFile) : Prop :=
  match event with
  | .alloc src status index =>
      allocPage src (some store) file = (status, index, file')
  | .free index status =>
      freePage (some store) file index = (status, file')
  | .get dest index status read =>
      getPage dest (some store) file index = (status, read, file')
  | .put src index status =>
      putPage src (some store) file index = (status, file')

section Results

variable {store : Backing} {file file₁ file' : StoreFile}
  {status code : Status} {index : PageIndex}

/-! A call has one result. -/

theorem alloc_result_unique {src : Option Page} {page : PageIndex}
    (hresult : allocPage src (some store) file = (code, page, file₁))
    (hcall : storeStep store file (.alloc src status index) file') :
    code = status ∧ page = index ∧ file₁ = file' := by
  simpa only [Prod.mk.injEq] using hresult.symm.trans hcall

theorem free_result_unique
    (hresult : freePage (some store) file index = (code, file₁))
    (hcall : storeStep store file (.free index status) file') :
    code = status ∧ file₁ = file' := by
  simpa only [Prod.mk.injEq] using hresult.symm.trans hcall

theorem get_result_unique {dest read page : Page}
    (hresult : getPage dest (some store) file index = (code, page, file₁))
    (hcall : storeStep store file (.get dest index status read) file') :
    code = status ∧ page = read ∧ file₁ = file' := by
  simpa only [Prod.mk.injEq] using hresult.symm.trans hcall

theorem put_result_unique {src : Page}
    (hresult : putPage src (some store) file index = (code, file₁))
    (hcall : storeStep store file (.put src index status) file') :
    code = status ∧ file₁ = file' := by
  simpa only [Prod.mk.injEq] using hresult.symm.trans hcall

end Results

/-- The file is a store with the given list of free pages, and all transfers
to come succeed. -/
structure HoldsStore (file : StoreFile) (size : ℕ) (free : List ℕ) :
    Prop where
  schedule : file.schedule = []
  storeAt : StoreAt file.image size free

variable {file : StoreFile} {size : ℕ} {free : List ℕ}

theorem HoldsStore.eq_reliable (h : HoldsStore file size free) :
    file = reliable file.image :=
  StoreFile.ext rfl h.schedule

theorem holdsStore_created {storefd : ℤ}
    (h : createNewBacking storefd [] = (.ok, file)) :
    HoldsStore file 1 [] := by
  rw [eq_createdImage h]
  exact ⟨rfl, storeAt_createdImage⟩

end NickDB

import NickDB.Support.Loops
import Mathlib.Logic.Function.Basic

/-!
# Linked lists

The circular lists of `linkedlist.h`.  A list is a ring of `struct list_head`s
of which one is the head and the others are embedded in the entries; `α` is the
type of their addresses.  The memory holds the two pointers of every address,
also of those that no call has written yet.

A call takes the memory and returns it, with the writes in the order of the
source.  Reading or writing through a pointer that names no `struct list_head`
faults, and the call has no result.
-/

namespace NickDB

/-- A `struct list_head *`: null, one of the two poison values, or the address
of a `struct list_head`. -/
inductive ListPtr (α : Type)
  | null
  | poison1
  | poison2
  | node (address : α)
  deriving DecidableEq, Repr

/-- `struct list_head`. -/
structure ListHead (α : Type) where
  next : ListPtr α
  prev : ListPtr α
  deriving DecidableEq, Repr

/-- The `struct list_head` at each address. -/
abbrev ListMemory (α : Type) := α → ListHead α

section Calls

variable {α : Type} [DecidableEq α]

/-! ## Reading and writing a field -/

/-- `ptr->next`. -/
def readNext (memory : ListMemory α) : ListPtr α → Option (ListPtr α)
  | .node address => some (memory address).next
  | _ => none

/-- `ptr->prev`. -/
def readPrev (memory : ListMemory α) : ListPtr α → Option (ListPtr α)
  | .node address => some (memory address).prev
  | _ => none

/-- `ptr->next = value`. -/
def writeNext (memory : ListMemory α) (ptr value : ListPtr α) :
    Option (ListMemory α) :=
  match ptr with
  | .node address => some (Function.update memory address
      { memory address with next := value })
  | _ => none

/-- `ptr->prev = value`. -/
def writePrev (memory : ListMemory α) (ptr value : ListPtr α) :
    Option (ListMemory α) :=
  match ptr with
  | .node address => some (Function.update memory address
      { memory address with prev := value })
  | _ => none

/-! ## Adding and deleting entries -/

/-- `INIT_LIST_HEAD`. -/
def initListHead (memory : ListMemory α) (ptr : ListPtr α) :
    Option (ListMemory α) := do
  let memory ← writeNext memory ptr ptr
  writePrev memory ptr ptr

/-- `__list_add`: insert between two known consecutive entries. -/
def listAddBetween (memory : ListMemory α) (new prev next : ListPtr α) :
    Option (ListMemory α) := do
  let memory ← writePrev memory next new
  let memory ← writeNext memory new next
  let memory ← writePrev memory new prev
  writeNext memory prev new

/-- `list_add`. -/
def listAdd (memory : ListMemory α) (new head : ListPtr α) :
    Option (ListMemory α) := do
  let next ← readNext memory head
  listAddBetween memory new head next

/-- `list_add_tail`. -/
def listAddTail (memory : ListMemory α) (new head : ListPtr α) :
    Option (ListMemory α) := do
  let prev ← readPrev memory head
  listAddBetween memory new prev head

/-- `__list_del`: make two entries point to each other. -/
def listDelBetween (memory : ListMemory α) (prev next : ListPtr α) :
    Option (ListMemory α) := do
  let memory ← writePrev memory next prev
  writeNext memory prev next

/-- `__list_del(entry->prev, entry->next)`. -/
def listDelEntry (memory : ListMemory α) (entry : ListPtr α) :
    Option (ListMemory α) := do
  let prev ← readPrev memory entry
  let next ← readNext memory entry
  listDelBetween memory prev next

/-- `list_del`: the deleted entry is poisoned. -/
def listDel (memory : ListMemory α) (entry : ListPtr α) :
    Option (ListMemory α) := do
  let memory ← listDelEntry memory entry
  let memory ← writeNext memory entry .poison1
  writePrev memory entry .poison2

/-- `list_del_init`: the deleted entry is a list of its own. -/
def listDelInit (memory : ListMemory α) (entry : ListPtr α) :
    Option (ListMemory α) := do
  let memory ← listDelEntry memory entry
  initListHead memory entry

/-- `list_move`. -/
def listMove (memory : ListMemory α) (list head : ListPtr α) :
    Option (ListMemory α) := do
  let memory ← listDelEntry memory list
  listAdd memory list head

/-- `list_move_tail`. -/
def listMoveTail (memory : ListMemory α) (list head : ListPtr α) :
    Option (ListMemory α) := do
  let memory ← listDelEntry memory list
  listAddTail memory list head

/-! ## Joining two lists -/

/-- `list_empty`. -/
def listEmpty (memory : ListMemory α) (head : ListPtr α) : Option Bool := do
  let next ← readNext memory head
  return decide (next = head)

/-- `__list_splice`.  The list that is spliced in keeps its head's pointers. -/
def listSpliceNonempty (memory : ListMemory α) (list head : ListPtr α) :
    Option (ListMemory α) := do
  let first ← readNext memory list
  let last ← readPrev memory list
  let at' ← readNext memory head
  let memory ← writePrev memory first head
  let memory ← writeNext memory head first
  let memory ← writeNext memory last at'
  writePrev memory at' last

/-- `list_splice`. -/
def listSplice (memory : ListMemory α) (list head : ListPtr α) :
    Option (ListMemory α) := do
  let empty ← listEmpty memory list
  if empty then return memory
  listSpliceNonempty memory list head

/-- `list_splice_init`. -/
def listSpliceInit (memory : ListMemory α) (list head : ListPtr α) :
    Option (ListMemory α) := do
  let empty ← listEmpty memory list
  if empty then return memory
  let memory ← listSpliceNonempty memory list head
  initListHead memory list

end Calls

end NickDB

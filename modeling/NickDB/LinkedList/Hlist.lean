import NickDB.LinkedList.Model
import NickDB.Support.Loops

/-!
# Lists with a single pointer head

The `hlist` of `linkedlist.h`.  A head points to the first node; a node points
to the next one and, by `pprev`, to the pointer that points to it, which is in
the head or in the node before.  Heads and nodes have addresses in `κ` and `ν`.
The calls are as in the source, write by write, and fault as the circular lists
do.
-/

namespace NickDB

/-- A `struct hlist_node **`: null, one of the two poison values, or the address
of the `first` field of a head or of the `next` field of a node. -/
inductive HlistSlot (κ ν : Type)
  | null
  | poison1
  | poison2
  | first (head : κ)
  | next (node : ν)
  deriving DecidableEq, Repr

/-- `struct hlist_node`. -/
structure HlistNode (κ ν : Type) where
  next : ListPtr ν
  pprev : HlistSlot κ ν
  deriving DecidableEq, Repr

/-- The `struct hlist_head` and the `struct hlist_node` at each address. -/
@[ext] structure HlistMemory (κ ν : Type) where
  first : κ → ListPtr ν
  nodes : ν → HlistNode κ ν

section Calls

variable {κ ν : Type} [DecidableEq κ] [DecidableEq ν]

/-! ## Reading and writing a field -/

/-- `ptr->next`. -/
def hlistNext (memory : HlistMemory κ ν) : ListPtr ν → Option (ListPtr ν)
  | .node address => some (memory.nodes address).next
  | _ => none

/-- `ptr->pprev`. -/
def hlistPprev (memory : HlistMemory κ ν) : ListPtr ν → Option (HlistSlot κ ν)
  | .node address => some (memory.nodes address).pprev
  | _ => none

/-- `&ptr->next`; the field is at the start of the node. -/
def nextSlot : ListPtr ν → HlistSlot κ ν
  | .null => .null
  | .poison1 => .poison1
  | .poison2 => .poison2
  | .node address => .next address

/-- `*slot = value`. -/
def hlistStore (memory : HlistMemory κ ν) (slot : HlistSlot κ ν)
    (value : ListPtr ν) : Option (HlistMemory κ ν) :=
  match slot with
  | .first head =>
      some { memory with first := Function.update memory.first head value }
  | .next node =>
      let stored := { memory.nodes node with next := value }
      some { memory with nodes := Function.update memory.nodes node stored }
  | _ => none

/-- `ptr->next = value`. -/
def hlistSetNext (memory : HlistMemory κ ν) (ptr value : ListPtr ν) :
    Option (HlistMemory κ ν) :=
  hlistStore memory (nextSlot ptr) value

/-- `ptr->pprev = value`. -/
def hlistSetPprev (memory : HlistMemory κ ν) (ptr : ListPtr ν)
    (value : HlistSlot κ ν) : Option (HlistMemory κ ν) :=
  match ptr with
  | .node node =>
      let stored := { memory.nodes node with pprev := value }
      some { memory with nodes := Function.update memory.nodes node stored }
  | _ => none

/-! ## The calls -/

/-- `INIT_HLIST_HEAD`. -/
def initHlistHead (memory : HlistMemory κ ν) (head : κ) :
    Option (HlistMemory κ ν) :=
  hlistStore memory (.first head) .null

/-- `INIT_HLIST_NODE`. -/
def initHlistNode (memory : HlistMemory κ ν) (ptr : ListPtr ν) :
    Option (HlistMemory κ ν) := do
  let memory ← hlistSetNext memory ptr .null
  hlistSetPprev memory ptr .null

/-- `hlist_unhashed`. -/
def hlistUnhashed (memory : HlistMemory κ ν) (h : ListPtr ν) : Option Bool := do
  let pprev ← hlistPprev memory h
  return decide (pprev = .null)

/-- `hlist_empty`. -/
def hlistEmpty (memory : HlistMemory κ ν) (h : κ) : Bool :=
  decide (memory.first h = .null)

/-- `__hlist_del`. -/
def hlistDelNode (memory : HlistMemory κ ν) (n : ListPtr ν) :
    Option (HlistMemory κ ν) := do
  let next ← hlistNext memory n
  let pprev ← hlistPprev memory n
  let memory ← hlistStore memory pprev next
  if next = .null then return memory
  hlistSetPprev memory next pprev

/-- `hlist_del`: the deleted node is poisoned. -/
def hlistDel (memory : HlistMemory κ ν) (n : ListPtr ν) :
    Option (HlistMemory κ ν) := do
  let memory ← hlistDelNode memory n
  let memory ← hlistSetNext memory n .poison1
  hlistSetPprev memory n .poison2

/-- `hlist_del_init`. -/
def hlistDelInit (memory : HlistMemory κ ν) (n : ListPtr ν) :
    Option (HlistMemory κ ν) := do
  let pprev ← hlistPprev memory n
  if pprev = .null then return memory
  let memory ← hlistDelNode memory n
  initHlistNode memory n

/-- `hlist_add_head`. -/
def hlistAddHead (memory : HlistMemory κ ν) (n : ListPtr ν) (h : κ) :
    Option (HlistMemory κ ν) := do
  let first := memory.first h
  let memory ← hlistSetNext memory n first
  let memory ←
    if first = .null then some memory
    else hlistSetPprev memory first (nextSlot n)
  let memory ← hlistStore memory (.first h) n
  hlistSetPprev memory n (.first h)

/-- `hlist_add_before`. -/
def hlistAddBefore (memory : HlistMemory κ ν) (n next : ListPtr ν) :
    Option (HlistMemory κ ν) := do
  let pprev ← hlistPprev memory next
  let memory ← hlistSetPprev memory n pprev
  let memory ← hlistSetNext memory n next
  let memory ← hlistSetPprev memory next (nextSlot n)
  let pprev ← hlistPprev memory n
  hlistStore memory pprev n

/-- `hlist_add_after`: `next` is added behind `n`. -/
def hlistAddAfter (memory : HlistMemory κ ν) (n next : ListPtr ν) :
    Option (HlistMemory κ ν) := do
  let behind ← hlistNext memory n
  let memory ← hlistSetNext memory next behind
  let memory ← hlistSetNext memory n next
  let memory ← hlistSetPprev memory next (nextSlot n)
  let behind ← hlistNext memory next
  if behind = .null then return memory
  hlistSetPprev memory behind (nextSlot next)

/-! ## The loops -/

variable {σ : Type} (memory : σ → HlistMemory κ ν)
  (visit : ListPtr ν → σ → Option σ)

/-- `pos && ({ ...pos->next...; 1; })`: the test reads the pointer of the node,
as a hint to the cache or into `n`. -/
def hlistTest (state : ListPtr ν × σ) : Option Bool :=
  if state.1 = .null then some false
  else do
    let _ ← hlistNext (memory state.2) state.1
    return true

/-- The body, then `pos = pos->next`. -/
def hlistForEachBody (state : ListPtr ν × σ) : Option (ListPtr ν × σ) := do
  let after ← visit state.1 state.2
  let pos ← hlistNext (memory after) state.1
  return (pos, after)

/-- The body after the test has read `n`, then `pos = n`. -/
def hlistForEachSafeBody (state : ListPtr ν × σ) : Option (ListPtr ν × σ) := do
  let n ← hlistNext (memory state.2) state.1
  let after ← visit state.1 state.2
  return (n, after)

/-- `hlist_for_each` over the list of `head` takes the state `start` to
`finish`. -/
def HlistForEach (head : κ) (start finish : σ) : Prop :=
  ∃ last tested, Loops.Ends (hlistTest memory) (hlistForEachBody memory visit)
    ((memory start).first head, start) tested (last, finish)

/-- `hlist_for_each_safe`. -/
def HlistForEachSafe (head : κ) (start finish : σ) : Prop :=
  ∃ last tested, Loops.Ends (hlistTest memory)
    (hlistForEachSafeBody memory visit)
    ((memory start).first head, start) tested (last, finish)

end Calls

end NickDB

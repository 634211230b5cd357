import NickDB.LinkedList.Model
import NickDB.Support.Rings

/-!
# The calls of a linked list as joins

The pointers of the memory as the links of nodes.  `__list_add`, `__list_del`
and `__list_splice` write the pointers that join two nodes, next to each other
in the source; every call on pointers to nodes is made of such joins.
-/

namespace NickDB

open Rings

variable {α : Type} {memory memory' : ListMemory α}

/-- The node a pointer names. -/
def ListPtr.address? : ListPtr α → Option α
  | .node address => some address
  | _ => none

@[simp] theorem address?_eq_some_iff {ptr : ListPtr α} {a : α} :
    ptr.address? = some a ↔ ptr = .node a := by
  cases ptr <;> simp [ListPtr.address?]

/-- The pointers of the memory as links. -/
def listLinks (memory : ListMemory α) : Links α where
  next := fun a => (memory a).next.address?
  prev := fun a => (memory a).prev.address?

variable {u v h k : α} {xs ys front back : List α}

/-- The node behind `u` is `v`. -/
theorem joined_iff :
    (listLinks memory).Joined u v ↔
      (memory u).next = .node v ∧ (memory v).prev = .node u := by
  simp [Links.Joined, listLinks]

theorem readNext_node :
    readNext memory (.node u) = some (memory u).next := rfl

theorem readPrev_node :
    readPrev memory (.node u) = some (memory u).prev := rfl

variable [DecidableEq α]

/-- The memory with the pointers of `u` and `v` that make `v` the node behind
`u`. -/
def joinMemory (memory : ListMemory α) (u v : α) : ListMemory α := fun a =>
  ⟨if a = u then .node v else (memory a).next,
    if a = v then .node u else (memory a).prev⟩

/-- A poisoned entry. -/
def poisonMemory (memory : ListMemory α) (u : α) : ListMemory α :=
  Function.update memory u ⟨.poison1, .poison2⟩

theorem listLinks_join :
    listLinks (joinMemory memory u v) = (listLinks memory).join u v := by
  apply Links.ext
  · funext a
    by_cases ha : a = u
    · simp [listLinks, joinMemory, Links.join, ha, ListPtr.address?]
    · simp [listLinks, joinMemory, Links.join, ha]
  · funext a
    by_cases ha : a = v
    · simp [listLinks, joinMemory, Links.join, ha, ListPtr.address?]
    · simp [listLinks, joinMemory, Links.join, ha]

/-! ## The writes of the source -/

theorem writeNext_node (ptr : ListPtr α) :
    writeNext memory (.node u) ptr = some fun a =>
      ⟨if a = u then ptr else (memory a).next, (memory a).prev⟩ := by
  rw [writeNext]
  congr 1
  funext a
  by_cases ha : a = u
  · simp [ha]
  · simp [ha]

theorem writePrev_node (ptr : ListPtr α) :
    writePrev memory (.node u) ptr = some fun a =>
      ⟨(memory a).next, if a = u then ptr else (memory a).prev⟩ := by
  rw [writePrev]
  congr 1
  funext a
  by_cases ha : a = u
  · simp [ha]
  · simp [ha]

/-- The two writes of a join, the `prev` pointer first. -/
theorem writePrev_writeNext :
    (writePrev memory (.node v) (.node u) >>= fun memory =>
      writeNext memory (.node u) (.node v)) = some (joinMemory memory u v) := by
  rw [writePrev_node, Option.bind_eq_bind, Option.bind_some, writeNext_node]
  rfl

/-- The two writes of a join, the `next` pointer first. -/
theorem writeNext_writePrev :
    (writeNext memory (.node u) (.node v) >>= fun memory =>
      writePrev memory (.node v) (.node u)) = some (joinMemory memory u v) := by
  rw [writeNext_node, Option.bind_eq_bind, Option.bind_some, writePrev_node]
  rfl

theorem initListHead_node :
    initListHead memory (.node u) = some (joinMemory memory u u) :=
  writeNext_writePrev

theorem listAddBetween_node :
    listAddBetween memory (.node u) (.node h) (.node k) =
      some (joinMemory (joinMemory memory u k) h u) := by
  have hfirst : listAddBetween memory (.node u) (.node h) (.node k) =
      (writePrev memory (.node k) (.node u) >>= fun memory =>
        writeNext memory (.node u) (.node k)) >>= fun memory =>
        writePrev memory (.node u) (.node h) >>= fun memory =>
          writeNext memory (.node h) (.node u) := by
    simp only [listAddBetween, bind_assoc]
  rw [hfirst, writePrev_writeNext]
  exact writePrev_writeNext

theorem listDelBetween_node :
    listDelBetween memory (.node h) (.node k) =
      some (joinMemory memory h k) :=
  writePrev_writeNext

/-! ## Each call on nodes of a ring -/

theorem listAdd_eq (hnext : (memory h).next = .node k) :
    listAdd memory (.node u) (.node h) =
      some (joinMemory (joinMemory memory u k) h u) := by
  rw [listAdd, readNext_node, hnext]
  exact listAddBetween_node

theorem listAddTail_eq (hprev : (memory h).prev = .node k) :
    listAddTail memory (.node u) (.node h) =
      some (joinMemory (joinMemory memory u h) k u) := by
  rw [listAddTail, readPrev_node, hprev]
  exact listAddBetween_node

theorem listDelEntry_eq (hprev : (memory u).prev = .node h)
    (hnext : (memory u).next = .node k) :
    listDelEntry memory (.node u) = some (joinMemory memory h k) := by
  rw [listDelEntry, readPrev_node, readNext_node, hprev, hnext]
  exact listDelBetween_node

/-- `list_del` writes the two poison values after it has joined the neighbours
of the entry. -/
theorem listDel_eq (h : listDelEntry memory (.node u) = some memory') :
    listDel memory (.node u) = some (poisonMemory memory' u) := by
  rw [listDel, h, Option.bind_eq_bind, Option.bind_some, writeNext_node,
    Option.bind_some, writePrev_node, poisonMemory]
  congr 1
  funext a
  by_cases ha : a = u
  · simp [ha]
  · simp [ha]

theorem listDelInit_eq (h : listDelEntry memory (.node u) = some memory') :
    listDelInit memory (.node u) = some (joinMemory memory' u u) := by
  rw [listDelInit, h]
  exact initListHead_node

theorem listEmpty_eq (hnext : (memory u).next = .node v) :
    listEmpty memory (.node u) = some (decide (v = u)) := by
  simp [listEmpty, readNext_node, hnext]

theorem listSpliceNonempty_eq (hfirst : (memory k).next = .node u)
    (hlast : (memory k).prev = .node v) {w : α}
    (hat : (memory h).next = .node w) :
    listSpliceNonempty memory (.node k) (.node h) =
      some (joinMemory (joinMemory memory h u) v w) := by
  have hjoins : listSpliceNonempty memory (.node k) (.node h) =
      (writePrev memory (.node u) (.node h) >>= fun memory =>
        writeNext memory (.node h) (.node u)) >>= fun memory =>
        writeNext memory (.node v) (.node w) >>= fun memory =>
          writePrev memory (.node w) (.node v) := by
    simp only [listSpliceNonempty, readNext_node, readPrev_node, hfirst, hlast,
      hat, Option.bind_eq_bind, Option.bind_some, Option.bind_assoc]
  rw [hjoins, writePrev_writeNext]
  exact writeNext_writePrev

end NickDB

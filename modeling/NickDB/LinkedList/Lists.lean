import NickDB.Support.ListFamily
import NickDB.Support.Runs
import Mathlib.Data.Set.Insert

/-!
# What the linked lists stand for

The calls of `linkedlist.h` on an abstract family of lists: which nodes head a
list, the entries of each list in order, and the entries `list_del` has left
poisoned.  A call has a precondition, under which it is a step of the family.
-/

namespace NickDB

open ListFamily

/-- The calls that write. -/
inductive ListCall (α : Type)
  | init (ptr : α)
  | add (new head : α)
  | addTail (new head : α)
  | del (entry : α)
  | delInit (entry : α)
  | move (list head : α)
  | moveTail (list head : α)
  | splice (list head : α)
  | spliceInit (list head : α)
  deriving DecidableEq, Repr

/-- Lists without common nodes, and deleted entries that are in none of them. -/
@[ext] structure ListWorld (α : Type) where
  entries : Entries α
  deleted : Set α
  separated : Separated entries
  deleted_free : ∀ u ∈ deleted, ¬Holds entries u

/-- No list yet. -/
def ListWorld.empty {α : Type} : ListWorld α where
  entries := fun _ => none
  deleted := ∅
  separated := separated_none
  deleted_free := fun _ hu => absurd hu (Set.notMem_empty _)

/-- The deleted entries after a call. -/
def ListCall.deletedAfter {α : Type} (deleted : Set α) : ListCall α → Set α
  | .init ptr => deleted \ {ptr}
  | .add new _ => deleted \ {new}
  | .addTail new _ => deleted \ {new}
  | .del entry => insert entry deleted
  | _ => deleted

section Steps

variable {α : Type}

/-- The node is in no list, or heads an empty one. -/
def ListWorld.Alone (world : ListWorld α) (u : α) : Prop :=
  ∀ h xs, world.entries h = some xs → u ∈ h :: xs → h = u ∧ xs = []

/-- The node is an entry of a list, or heads an empty one. -/
def ListWorld.Linked (world : ListWorld α) (u : α) : Prop :=
  world.entries u = some [] ∨ ∃ h xs, world.entries h = some xs ∧ u ∈ xs

/-- The node heads a list. -/
def ListWorld.Heads (world : ListWorld α) (h : α) : Prop :=
  ∃ xs, world.entries h = some xs

/-- What the caller of each call has to see to. -/
def ListCall.Permitted (world : ListWorld α) : ListCall α → Prop
  | .init ptr => ∀ h xs, world.entries h = some xs → ptr ∉ xs
  | .add new head => world.Alone new ∧ new ≠ head ∧ world.Heads head
  | .addTail new head => world.Alone new ∧ new ≠ head ∧ world.Heads head
  | .del entry => world.Linked entry
  | .delInit entry => world.Linked entry
  | .move list head => world.Linked list ∧ list ≠ head ∧ world.Heads head
  | .moveTail list head => world.Linked list ∧ list ≠ head ∧ world.Heads head
  | .splice list head => world.Heads list ∧ list ≠ head ∧ world.Heads head
  | .spliceInit list head => world.Heads list ∧ list ≠ head ∧ world.Heads head

/-- A linked node is in some list. -/
theorem ListWorld.Linked.holds {world : ListWorld α} {u : α}
    (hu : world.Linked u) : Holds world.entries u := by
  rcases hu with hu | ⟨h, xs, hxs, hmem⟩
  · exact ⟨u, [], hu, List.mem_cons_self⟩
  · exact ⟨h, xs, hxs, List.mem_cons_of_mem h hmem⟩

variable [DecidableEq α]

/-- The lists after a call. -/
def ListCall.entriesAfter (entries : Entries α) : ListCall α → Entries α
  | .init ptr => assign entries ptr []
  | .add new head => pushEntry entries new head
  | .addTail new head => appendEntry entries new head
  | .del entry => detach entries entry
  | .delInit entry => assign (detach entries entry) entry []
  | .move list head => pushEntry entries list head
  | .moveTail list head => appendEntry entries list head
  | .splice list head =>
      if entries list = some [] then entries
      else spliceEntries entries list head
  | .spliceInit list head =>
      if entries list = some [] then entries
      else assign (spliceEntries entries list head) list []

/-! ## A permitted call is a step -/

variable {world world' : ListWorld α} {call : ListCall α} {u v : α}

theorem separated_entriesAfter (hcall : call.Permitted world) :
    Separated (call.entriesAfter world.entries) := by
  have hs := world.separated
  cases call with
  | init ptr =>
      apply separated_assign_nil hs
      intro k ys hk hys hmem
      rcases List.mem_cons.mp hmem with heq | hmem
      · exact hk heq.symm
      · exact hcall k ys hys hmem
  | add new head => exact separated_pushEntry hs hcall.2.1 hcall.2.2
  | addTail new head => exact separated_appendEntry hs hcall.2.1 hcall.2.2
  | del entry => exact hs.detach
  | delInit entry =>
      apply separated_assign_nil hs.detach
      intro k ys hk hys hmem
      exact hs.not_holds_detach ⟨k, ys, hys, hmem⟩
  | move list head => exact separated_pushEntry hs hcall.2.1 hcall.2.2
  | moveTail list head => exact separated_appendEntry hs hcall.2.1 hcall.2.2
  | splice list head =>
      obtain ⟨⟨ys, hys⟩, hne, xs, hxs⟩ := hcall
      rw [ListCall.entriesAfter]
      split
      next => exact hs
      next => exact separated_spliceEntries hs hne hys hxs
  | spliceInit list head =>
      obtain ⟨⟨ys, hys⟩, hne, xs, hxs⟩ := hcall
      rw [ListCall.entriesAfter]
      split
      next => exact hs
      next =>
        apply separated_assign_nil (separated_spliceEntries hs hne hys hxs)
        intro j zs hj hzs hmem
        exact not_holds_spliceEntries hs hne hys hxs ⟨j, zs, hzs, hmem⟩

/-- A node is in a list after a call only if it was in one before, or the call
has put it there. -/
theorem deleted_free_after (hcall : call.Permitted world) :
    ∀ u ∈ call.deletedAfter world.deleted,
      ¬Holds (call.entriesAfter world.entries) u := by
  have hs := world.separated
  have hfree := world.deleted_free
  intro u hu hheld
  cases call with
  | init ptr =>
      rcases holds_assign hheld with hmem | hheld
      · exact hu.2 (List.mem_singleton.mp hmem)
      · exact hfree u hu.1 hheld
  | add new head =>
      rcases holds_of_pushEntry hcall.2.1 hcall.2.2 hheld with heq | hheld
      · exact hu.2 heq
      · exact hfree u hu.1 hheld
  | addTail new head =>
      rcases holds_of_appendEntry hcall.2.1 hcall.2.2 hheld with heq | hheld
      · exact hu.2 heq
      · exact hfree u hu.1 hheld
  | del entry =>
      rcases Set.mem_insert_iff.mp hu with rfl | hu
      · exact hs.not_holds_detach hheld
      · exact hfree u hu (holds_of_detach hheld)
  | delInit entry =>
      rcases holds_assign hheld with hmem | hheld
      · rw [List.mem_singleton.mp hmem] at hu
        exact hfree entry hu hcall.holds
      · exact hfree u hu (holds_of_detach hheld)
  | move list head =>
      rcases holds_of_pushEntry hcall.2.1 hcall.2.2 hheld with rfl | hheld
      · exact hfree u hu hcall.1.holds
      · exact hfree u hu hheld
  | moveTail list head =>
      rcases holds_of_appendEntry hcall.2.1 hcall.2.2 hheld with rfl | hheld
      · exact hfree u hu hcall.1.holds
      · exact hfree u hu hheld
  | splice list head =>
      obtain ⟨⟨ys, hys⟩, -, xs, hxs⟩ := hcall
      rw [ListCall.entriesAfter] at hheld
      split at hheld
      next => exact hfree u hu hheld
      next => exact hfree u hu (holds_of_spliceEntries hys hxs hheld)
  | spliceInit list head =>
      obtain ⟨⟨ys, hys⟩, -, xs, hxs⟩ := hcall
      rw [ListCall.entriesAfter] at hheld
      split at hheld
      next => exact hfree u hu hheld
      next =>
        rcases holds_assign hheld with hmem | hheld
        · rw [List.mem_singleton.mp hmem] at hu
          exact hfree list hu ⟨list, ys, hys, List.mem_cons_self⟩
        · exact hfree u hu (holds_of_spliceEntries hys hxs hheld)

/-- The step of a permitted call. -/
def listsStep (world : ListWorld α) (call : ListCall α)
    (world' : ListWorld α) : Prop :=
  call.Permitted world ∧ world'.entries = call.entriesAfter world.entries ∧
    world'.deleted = call.deletedAfter world.deleted

theorem listsStep_of_permitted (hcall : call.Permitted world) :
    ∃ world', listsStep world call world' :=
  ⟨⟨call.entriesAfter world.entries, call.deletedAfter world.deleted,
    separated_entriesAfter hcall, deleted_free_after hcall⟩, hcall, rfl, rfl⟩

end Steps

end NickDB

import NickDB.LinkedList.Hlist
import NickDB.Support.SlotChains

/-!
# The calls of an hlist as puts

The pointers of the memory as slots.  The writes of each call, in whatever order
the source makes them, put a node into the slot of a head or of a node once or
twice.
-/

namespace NickDB

open SlotChains

variable {κ ν : Type}

/-- The node a pointer names, if any; a poison value is neither. -/
def ListPtr.content? : ListPtr ν → Option (Option ν)
  | .null => some none
  | .node address => some (some address)
  | _ => none

/-- The pointer to a node, or null. -/
def contentPtr : Option ν → ListPtr ν
  | none => .null
  | some address => .node address

/-- The slot a `pprev` pointer names. -/
def HlistSlot.slot? : HlistSlot κ ν → Option (Slot κ ν)
  | .first head => some (.inl head)
  | .next node => some (.inr node)
  | _ => none

/-- The address of a slot. -/
def slotPtr : Slot κ ν → HlistSlot κ ν
  | .inl head => .first head
  | .inr node => .next node

/-- The pointers of the memory as slots. -/
def hlistSlots (memory : HlistMemory κ ν) : Slots κ ν where
  load := fun s => match s with
    | .inl head => (memory.first head).content?
    | .inr node => (memory.nodes node).next.content?
  back := fun node => (memory.nodes node).pprev.slot?

@[simp] theorem content?_eq_some_iff {ptr : ListPtr ν} {content : Option ν} :
    ptr.content? = some content ↔ ptr = contentPtr content := by
  cases ptr <;> cases content <;> simp [ListPtr.content?, contentPtr]

@[simp] theorem slot?_eq_some_iff {ptr : HlistSlot κ ν} {s : Slot κ ν} :
    ptr.slot? = some s ↔ ptr = slotPtr s := by
  cases ptr <;> cases s <;> simp [HlistSlot.slot?, slotPtr]

variable {memory : HlistMemory κ ν} {h : κ} {u x : ν} {content : Option ν}
  {s : Slot κ ν}

theorem hlistNext_node :
    hlistNext memory (.node u) = some (memory.nodes u).next := rfl

theorem hlistPprev_node :
    hlistPprev memory (.node u) = some (memory.nodes u).pprev := rfl

variable [DecidableEq ν]

theorem hlistSetPprev_node (value : HlistSlot κ ν) :
    hlistSetPprev memory (.node u) value = some ⟨memory.first, fun node =>
      ⟨(memory.nodes node).next,
        if node = u then value else (memory.nodes node).pprev⟩⟩ := by
  rw [hlistSetPprev]
  congr 2
  funext node
  by_cases hnode : node = u
  · simp [hnode]
  · simp [hnode]

variable [DecidableEq κ]

/-- The memory with a node, or nothing, put into a slot. -/
def putMemory (memory : HlistMemory κ ν) (s : Slot κ ν) (content : Option ν) :
    HlistMemory κ ν where
  first := fun head =>
    if .inl head = s then contentPtr content else memory.first head
  nodes := fun node =>
    ⟨if .inr node = s then contentPtr content else (memory.nodes node).next,
      if content = some node then slotPtr s else (memory.nodes node).pprev⟩

theorem hlistSlots_put :
    hlistSlots (putMemory memory s content) =
      (hlistSlots memory).put s content := by
  apply Slots.ext
  · funext t
    by_cases hts : t = s
    · subst hts
      cases t <;> simp [hlistSlots, putMemory]
    · rw [load_put_of_ne hts]
      cases t <;> simp [hlistSlots, putMemory, hts]
  · funext node
    by_cases hnode : content = some node
    · subst hnode
      simp [hlistSlots, putMemory]
    · rw [back_put_of_ne hnode]
      simp [hlistSlots, putMemory, hnode]

/-! ## The writes of the source -/

theorem hlistStore_first (value : ListPtr ν) :
    hlistStore memory (.first h) value = some
      ⟨fun head => if head = h then value else memory.first head,
        memory.nodes⟩ := by
  rw [hlistStore]
  congr 2
  funext head
  rw [Function.update_apply]

theorem hlistStore_next (value : ListPtr ν) :
    hlistStore memory (.next u) value = some ⟨memory.first, fun node =>
      ⟨if node = u then value else (memory.nodes node).next,
        (memory.nodes node).pprev⟩⟩ := by
  rw [hlistStore]
  congr 2
  funext node
  by_cases hnode : node = u
  · simp [hnode]
  · simp [hnode]

theorem hlistSetNext_node (value : ListPtr ν) :
    hlistSetNext memory (.node u) value = some ⟨memory.first, fun node =>
      ⟨if node = u then value else (memory.nodes node).next,
        (memory.nodes node).pprev⟩⟩ := hlistStore_next value

/-- Storing null into a slot. -/
theorem hlistStore_none :
    hlistStore memory (slotPtr s) .null = some (putMemory memory s none) := by
  cases s with
  | inl head =>
      rw [slotPtr, hlistStore_first]
      simp [putMemory, contentPtr]
  | inr node =>
      rw [slotPtr, hlistStore_next]
      simp [putMemory, contentPtr]

/-- Storing a node into a slot, then the slot into its `pprev`. -/
theorem hlistStore_some :
    (hlistStore memory (slotPtr s) (.node u) >>= fun memory =>
      hlistSetPprev memory (.node u) (slotPtr s)) =
        some (putMemory memory s (some u)) := by
  cases s with
  | inl head =>
      rw [slotPtr, hlistStore_first, Option.bind_eq_bind, Option.bind_some,
        hlistSetPprev_node]
      simp [putMemory, contentPtr, slotPtr, eq_comm]
  | inr node =>
      rw [slotPtr, hlistStore_next, Option.bind_eq_bind, Option.bind_some,
        hlistSetPprev_node]
      simp [putMemory, contentPtr, slotPtr, eq_comm]

/-- Storing what a slot shall hold, and the slot into the `pprev` of the node if
there is one. -/
theorem hlistStore_content :
    (hlistStore memory (slotPtr s) (contentPtr content) >>= fun memory =>
      if contentPtr content = .null then some memory
      else hlistSetPprev memory (contentPtr content) (slotPtr s)) =
        some (putMemory memory s content) := by
  cases content with
  | none =>
      simp only [contentPtr, if_true]
      rw [hlistStore_none]
      rfl
  | some u =>
      simp only [contentPtr, reduceCtorEq, if_false]
      exact hlistStore_some

/-! ## The calls -/

theorem hlistDelNode_eq (hnext : (memory.nodes u).next = contentPtr content)
    (hpprev : (memory.nodes u).pprev = slotPtr s) :
    hlistDelNode memory (.node u) = some (putMemory memory s content) := by
  rw [hlistDelNode, hlistNext_node, hlistPprev_node, hnext, hpprev]
  exact hlistStore_content

theorem hlistAddHead_eq (hfirst : memory.first h = contentPtr content) :
    hlistAddHead memory (.node u) h =
      some (putMemory (putMemory memory (.inr u) content) (.inl h)
        (some u)) := by
  cases content with
  | none =>
      simp [hlistAddHead, hfirst, contentPtr, hlistSetNext_node,
        hlistStore_first, hlistSetPprev_node, putMemory, slotPtr, eq_comm]
  | some c =>
      simp [hlistAddHead, hfirst, contentPtr, nextSlot, hlistSetNext_node,
        hlistStore_first, hlistSetPprev_node, putMemory, slotPtr, eq_comm]

/-- The writes of `hlist_add_before` come in another order, to the `pprev` of
two nodes. -/
theorem hlistAddBefore_eq (hux : u ≠ x)
    (hpprev : (memory.nodes x).pprev = slotPtr s) :
    hlistAddBefore memory (.node u) (.node x) =
      some (putMemory (putMemory memory (.inr u) (some x)) s (some u)) := by
  have hswap : ∀ (value : HlistSlot κ ν) node,
      (if u = node then value
        else if x = node then .next u else (memory.nodes node).pprev) =
      if x = node then .next u
        else if u = node then value else (memory.nodes node).pprev := by
    intro value node
    by_cases hnode : u = node
    · have hxnode : x ≠ node := hnode ▸ hux.symm
      simp [hnode, hxnode]
    · simp [hnode]
  cases s with
  | inl head =>
      simp [hlistAddBefore, hlistPprev_node, hpprev, contentPtr, nextSlot,
        hlistSetNext_node, hlistStore_first, hlistSetPprev_node, putMemory,
        slotPtr, hux, hswap, eq_comm]
  | inr node =>
      simp [hlistAddBefore, hlistPprev_node, hpprev, contentPtr, nextSlot,
        hlistSetNext_node, hlistStore_next, hlistSetPprev_node, putMemory,
        slotPtr, hux, hswap, eq_comm]

/-- The writes of `hlist_add_after` come in another order, to the `pprev` of two
nodes. -/
theorem hlistAddAfter_eq (hux : u ≠ x) (hcontent : content ≠ some x)
    (hnext : (memory.nodes u).next = contentPtr content) :
    hlistAddAfter memory (.node u) (.node x) =
      some (putMemory (putMemory memory (.inr x) content) (.inr u)
        (some x)) := by
  cases content with
  | none =>
      simp [hlistAddAfter, hlistNext_node, hnext, contentPtr, nextSlot,
        hlistSetNext_node, hlistSetPprev_node, putMemory, slotPtr, hux,
        eq_comm]
  | some c =>
      have hcx : x ≠ c := fun h => hcontent (congrArg some h.symm)
      have hswap : ∀ node,
          (if c = node then HlistSlot.next x
            else if x = node then .next u else (memory.nodes node).pprev) =
          if x = node then .next u
            else if c = node then .next x
              else (memory.nodes node).pprev := by
        intro node
        by_cases hnode : c = node
        · have hxnode : x ≠ node := hnode ▸ hcx
          simp [hnode, hxnode]
        · simp [hnode]
      simp [hlistAddAfter, hlistNext_node, hnext, contentPtr, nextSlot,
        hlistSetNext_node, hlistSetPprev_node, putMemory, slotPtr, hux, hswap,
        eq_comm]

end NickDB

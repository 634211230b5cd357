import NickDB.LinkedList.HlistPuts
import NickDB.LinkedList.HlistLists
import NickDB.Support.Runs

/-!
# The hlists refine a family of lists

A permitted call on an `hlist` does not fault and leads to a memory that
represents the lists after it; a call that uses a node `hlist_del` has taken out
faults.
-/

namespace NickDB

open SlotChains Runs

variable {κ ν : Type}

/-- The memory represents the lists. -/
structure RepresentsHlists (memory : HlistMemory κ ν) (s : HlistWorld κ ν) :
    Prop where
  chains : ChainsOf (hlistSlots memory) s.entries
  unhashed : ∀ u ∈ s.unhashed, memory.nodes u = ⟨.null, .null⟩
  deleted : ∀ u ∈ s.deleted, memory.nodes u = ⟨.poison1, .poison2⟩

variable {memory memory' : HlistMemory κ ν} {s t : HlistWorld κ ν}
  {call : HlistCall κ ν} {calls : List (HlistCall κ ν)} {u v x : ν} {h : κ}
  {front rest xs : List ν} {content : Option ν}

theorem representsHlists_empty :
    RepresentsHlists memory HlistWorld.empty where
  chains := fun _ _ h => nomatch h
  unhashed := fun _ hu => absurd hu (Set.notMem_empty _)
  deleted := fun _ hu => absurd hu (Set.notMem_empty _)

/-! ## Reading the pointers of a list -/

theorem first_of_entries (hchains : ChainsOf (hlistSlots memory) s.entries)
    (hxs : s.entries h = some xs) : memory.first h = contentPtr xs.head? :=
  content?_eq_some_iff.mp (hchains h xs hxs).load_start

theorem hlistNext_of_entries
    (hchains : ChainsOf (hlistSlots memory) s.entries)
    (hxs : s.entries h = some (front ++ u :: rest)) :
    (memory.nodes u).next = contentPtr rest.head? :=
  content?_eq_some_iff.mp (hchains h _ hxs).behind.2.2.load_start

theorem hlistPprev_of_entries
    (hchains : ChainsOf (hlistSlots memory) s.entries)
    (hxs : s.entries h = some (front ++ u :: rest)) :
    (memory.nodes u).pprev = slotPtr (endSlot (.inl h) front) :=
  slot?_eq_some_iff.mp (hchains h _ hxs).back_eq

theorem slotPtr_ne_null (slot : Slot κ ν) : slotPtr slot ≠ .null := by
  cases slot <;> simp [slotPtr]

variable [DecidableEq κ] [DecidableEq ν]

/-- The function that a call names. -/
def hlistCall (memory : HlistMemory κ ν) :
    HlistCall κ ν → Option (HlistMemory κ ν)
  | .initHead head => initHlistHead memory head
  | .initNode node => initHlistNode memory (.node node)
  | .addHead n h => hlistAddHead memory (.node n) h
  | .addBefore n next => hlistAddBefore memory (.node n) (.node next)
  | .addAfter n next => hlistAddAfter memory (.node n) (.node next)
  | .del n => hlistDel memory (.node n)
  | .delInit n => hlistDelInit memory (.node n)

/-- Calls made one after the other. -/
def hlistCalls (memory : HlistMemory κ ν) (calls : List (HlistCall κ ν)) :
    Option (HlistMemory κ ν) :=
  calls.foldlM hlistCall memory

/-! ## Nodes that a call does not touch -/

theorem nodes_putMemory {slot : Slot κ ν} (hslot : slot ≠ .inr v)
    (hcontent : content ≠ some v) :
    (putMemory memory slot content).nodes v = memory.nodes v := by
  simp [putMemory, hslot.symm, hcontent]

/-- The memory with other pointers in a node. -/
def setNode (memory : HlistMemory κ ν) (u : ν) (node : HlistNode κ ν) :
    HlistMemory κ ν :=
  ⟨memory.first, Function.update memory.nodes u node⟩

theorem hlistSetNode_eq (next : ListPtr ν) (pprev : HlistSlot κ ν) :
    (hlistSetNext memory (.node u) next >>= fun memory =>
      hlistSetPprev memory (.node u) pprev) =
        some (setNode memory u ⟨next, pprev⟩) := by
  rw [hlistSetNext_node, Option.bind_eq_bind, Option.bind_some,
    hlistSetPprev_node]
  congr 2
  funext node
  by_cases hnode : node = u
  · simp [hnode]
  · simp [hnode]

omit [DecidableEq κ] in
/-- The pointers of a node that is in no list may change. -/
theorem chainsOf_setNode {entries : κ → Option (List ν)}
    (hchains : ChainsOf (hlistSlots memory) entries) (hu : Free entries u)
    (node : HlistNode κ ν) :
    ChainsOf (hlistSlots (setNode memory u node)) entries := by
  apply hchains.congr hu
  · intro slot hslot
    cases slot with
    | inl head => rfl
    | inr v =>
        have hvu : v ≠ u := fun heq => hslot (congrArg Sum.inr heq)
        simp [hlistSlots, setNode, hvu]
  · intro v hvu
    simp [hlistSlots, setNode, hvu]

/-! ## Inserting and removing -/

/-- The memory after a node was inserted between `front` and `rest`. -/
def insertMemory (memory : HlistMemory κ ν) (u : ν) (h : κ)
    (front rest : List ν) : HlistMemory κ ν :=
  putMemory (putMemory memory (.inr u) rest.head?) (endSlot (.inl h) front)
    (some u)

omit [DecidableEq κ] [DecidableEq ν] in
/-- A node that is in no list is not in the slot behind some entries. -/
theorem endSlot_ne_of_free (hv : Free s.entries v)
    (hxs : s.entries h = some (front ++ rest)) :
    endSlot (.inl h) front ≠ .inr v := by
  rcases endSlot_eq (.inl h : Slot κ ν) front with heq | ⟨x, hx, heq⟩
  · rw [heq]
    exact Sum.inl_ne_inr
  · rw [heq]
    intro hxv
    exact hv h _ hxs (Sum.inr.inj hxv ▸ List.mem_append_left rest hx)

omit [DecidableEq κ] [DecidableEq ν] in
theorem head?_ne_of_free (hv : Free s.entries v)
    (hxs : s.entries h = some (front ++ rest)) : rest.head? ≠ some v :=
  fun heq => hv h _ hxs
    (List.mem_append_right front (List.mem_of_mem_head? heq))

theorem RepresentsHlists.inserted (hrep : RepresentsHlists memory s)
    (hstep : s.Inserted u h front rest t) :
    RepresentsHlists (insertMemory memory u h front rest) t := by
  have hnodes : ∀ v, v ≠ u → Free s.entries v →
      (insertMemory memory u h front rest).nodes v = memory.nodes v := by
    intro v hvu hv
    rw [insertMemory, nodes_putMemory (endSlot_ne_of_free hv hstep.before)
      (fun heq => hvu (Option.some.inj heq).symm),
      nodes_putMemory (fun heq => hvu (Sum.inr.inj heq).symm)
        (head?_ne_of_free hv hstep.before)]
  refine ⟨?_, ?_, ?_⟩
  · rw [hstep.after, insertMemory, hlistSlots_put, hlistSlots_put]
    exact hrep.chains.insert s.apart hstep.before hstep.free
  · intro v hv
    rw [hstep.unhashed] at hv
    rw [hnodes v hv.2 (s.free v (Or.inl hv.1))]
    exact hrep.unhashed v hv.1
  · intro v hv
    rw [hstep.deleted] at hv
    rw [hnodes v hv.2 (s.free v (Or.inr hv.1))]
    exact hrep.deleted v hv.1

/-- `__hlist_del` takes the node out of its list and leaves the nodes that are
in no list. -/
theorem RepresentsHlists.removed (hrep : RepresentsHlists memory s)
    (hstep : s.Removed u h front rest t) :
    ∃ memory', hlistDelNode memory (.node u) = some memory' ∧
      ChainsOf (hlistSlots memory') t.entries ∧
      ∀ v, Free s.entries v → memory'.nodes v = memory.nodes v := by
  refine ⟨_, hlistDelNode_eq (hlistNext_of_entries hrep.chains hstep.before)
    (hlistPprev_of_entries hrep.chains hstep.before), ?_, ?_⟩
  · rw [hlistSlots_put, hstep.after]
    exact hrep.chains.remove s.apart hstep.before
  · intro v hv
    apply nodes_putMemory (endSlot_ne_of_free hv hstep.before)
    have hxs := hstep.before
    rw [List.append_cons] at hxs
    exact head?_ne_of_free hv hxs

/-! ## One step -/

theorem RepresentsHlists.initHead (hrep : RepresentsHlists memory s)
    (hstep : hlistStep s (.initHead h) t) :
    RepresentsHlists (putMemory memory (.inl h) none) t := by
  obtain ⟨hentries, hunhashed, hdeleted⟩ := hstep
  have hnodes : ∀ v : ν,
      (putMemory memory (.inl h) none).nodes v = memory.nodes v := by
    intro v
    simp [putMemory]
  refine ⟨?_, ?_, ?_⟩
  · rw [hentries, hlistSlots_put]
    exact hrep.chains.init
  · intro v hv
    rw [hnodes]
    exact hrep.unhashed v (hunhashed ▸ hv)
  · intro v hv
    rw [hnodes]
    exact hrep.deleted v (hdeleted ▸ hv)

theorem RepresentsHlists.initNode (hrep : RepresentsHlists memory s)
    (hstep : hlistStep s (.initNode u) t) :
    RepresentsHlists (setNode memory u ⟨.null, .null⟩) t := by
  obtain ⟨hu, hentries, hunhashed, hdeleted⟩ := hstep
  refine ⟨?_, ?_, ?_⟩
  · rw [hentries]
    exact chainsOf_setNode hrep.chains hu _
  · intro v hv
    rw [hunhashed] at hv
    by_cases hvu : v = u
    · simp [setNode, hvu]
    · simp only [setNode, Function.update_of_ne hvu]
      exact hrep.unhashed v (Set.mem_of_mem_insert_of_ne hv hvu)
  · intro v hv
    rw [hdeleted] at hv
    simp only [setNode, Function.update_of_ne hv.2]
    exact hrep.deleted v hv.1

/-- A node that was taken out of its list and gets other pointers. -/
theorem RepresentsHlists.settle (hrep : RepresentsHlists memory s)
    (hremoved : s.Removed u h front rest t)
    (hchains : ChainsOf (hlistSlots memory') t.entries)
    (hnodes : ∀ v, Free s.entries v → memory'.nodes v = memory.nodes v)
    {node : HlistNode κ ν}
    (hunhashed : ∀ v ∈ t.unhashed,
      v = u ∧ node = ⟨.null, .null⟩ ∨ v ∈ s.unhashed)
    (hdeleted : ∀ v ∈ t.deleted,
      v = u ∧ node = ⟨.poison1, .poison2⟩ ∨ v ∈ s.deleted) :
    RepresentsHlists (setNode memory' u node) t := by
  have hu : Free t.entries u := by
    rw [hremoved.after]
    exact s.apart.free_of_remove hremoved.before
  have hothers : ∀ v, Free s.entries v →
      (setNode memory' u node).nodes v = memory.nodes v := by
    intro v hv
    have hvu : v ≠ u := by
      rintro rfl
      exact hv h _ hremoved.before (by simp)
    simp [setNode, hvu, hnodes v hv]
  have hself : (setNode memory' u node).nodes u = node := by
    simp [setNode]
  refine ⟨chainsOf_setNode hchains hu _, ?_, ?_⟩
  · intro v hv
    rcases hunhashed v hv with ⟨rfl, hnull⟩ | hv
    · rw [hself, hnull]
    · rw [hothers v (s.free v (Or.inl hv))]
      exact hrep.unhashed v hv
  · intro v hv
    rcases hdeleted v hv with ⟨rfl, hpoison⟩ | hv
    · rw [hself, hpoison]
    · rw [hothers v (s.free v (Or.inr hv))]
      exact hrep.deleted v hv

theorem RepresentsHlists.del (hrep : RepresentsHlists memory s)
    (hremoved : s.Removed u h front rest t)
    (hunhashed : t.unhashed = s.unhashed)
    (hdeleted : t.deleted = insert u s.deleted) :
    ∃ memory', hlistDel memory (.node u) = some memory' ∧
      RepresentsHlists memory' t := by
  obtain ⟨memory₁, hdel, hchains, hnodes⟩ := hrep.removed hremoved
  refine ⟨setNode memory₁ u ⟨.poison1, .poison2⟩, ?_,
    hrep.settle hremoved hchains hnodes ?_ ?_⟩
  · rw [hlistDel, hdel]
    exact hlistSetNode_eq _ _
  · exact fun v hv => Or.inr (hunhashed ▸ hv)
  · intro v hv
    rw [hdeleted] at hv
    exact (Set.mem_insert_iff.mp hv).imp_left fun heq => ⟨heq, rfl⟩

theorem RepresentsHlists.delInit (hrep : RepresentsHlists memory s)
    (hremoved : s.Removed u h front rest t)
    (hunhashed : t.unhashed = insert u s.unhashed)
    (hdeleted : t.deleted = s.deleted) :
    ∃ memory', hlistDelInit memory (.node u) = some memory' ∧
      RepresentsHlists memory' t := by
  obtain ⟨memory₁, hdel, hchains, hnodes⟩ := hrep.removed hremoved
  refine ⟨setNode memory₁ u ⟨.null, .null⟩, ?_,
    hrep.settle hremoved hchains hnodes ?_ ?_⟩
  · rw [hlistDelInit, hlistPprev_node,
      hlistPprev_of_entries hrep.chains hremoved.before]
    simp only [Option.bind_eq_bind, Option.bind_some, slotPtr_ne_null, if_false,
      hdel]
    exact hlistSetNode_eq _ _
  · intro v hv
    rw [hunhashed] at hv
    exact (Set.mem_insert_iff.mp hv).imp_left fun heq => ⟨heq, rfl⟩
  · exact fun v hv => Or.inr (hdeleted ▸ hv)

/-- A permitted call does not fault and leads to a memory that represents the
lists after it. -/
theorem RepresentsHlists.step (hrep : RepresentsHlists memory s)
    (hstep : hlistStep s call t) :
    ∃ memory', hlistCall memory call = some memory' ∧
      RepresentsHlists memory' t := by
  cases call with
  | initHead h =>
      exact ⟨_, hlistStore_none (s := (.inl h : Slot κ ν)), hrep.initHead hstep⟩
  | initNode u => exact ⟨_, hlistSetNode_eq _ _, hrep.initNode hstep⟩
  | addHead u h =>
      obtain ⟨rest, hinserted⟩ := hstep
      exact ⟨_, hlistAddHead_eq (first_of_entries hrep.chains hinserted.before),
        hrep.inserted hinserted⟩
  | addBefore u x =>
      obtain ⟨h, front, rest, hinserted⟩ := hstep
      have hux : u ≠ x := by
        rintro rfl
        exact hinserted.free h _ hinserted.before (by simp)
      exact ⟨_, hlistAddBefore_eq hux
        (hlistPprev_of_entries hrep.chains hinserted.before),
        hrep.inserted hinserted⟩
  | addAfter x u =>
      obtain ⟨h, front, rest, hinserted⟩ := hstep
      have hxs := hinserted.before
      rw [← List.append_cons] at hxs
      have hxu : x ≠ u := by
        rintro rfl
        exact hinserted.free h _ hxs (by simp)
      have hend : endSlot (.inl h : Slot κ ν) (front ++ [x]) = .inr x :=
        endSlot_concat
      have hrep' := hrep.inserted hinserted
      rw [insertMemory, hend] at hrep'
      exact ⟨_, hlistAddAfter_eq hxu
        (head?_ne_of_free hinserted.free hinserted.before)
        (hlistNext_of_entries hrep.chains hxs), hrep'⟩
  | del u =>
      obtain ⟨h, front, rest, hremoved, hunhashed, hdeleted⟩ := hstep
      exact hrep.del hremoved hunhashed hdeleted
  | delInit u =>
      rcases hstep with ⟨hu, rfl⟩ |
        ⟨h, front, rest, hremoved, hunhashed, hdeleted⟩
      · refine ⟨memory, ?_, hrep⟩
        rw [hlistCall, hlistDelInit, hlistPprev_node, hrep.unhashed u hu]
        rfl
      · exact hrep.delInit hremoved hunhashed hdeleted

/-- Permitted calls do not fault. -/
theorem RepresentsHlists.run (hrep : RepresentsHlists memory s)
    (hrun : Run hlistStep s calls t) :
    ∃ memory', hlistCalls memory calls = some memory' ∧
      RepresentsHlists memory' t := by
  induction hrun generalizing memory with
  | nil s => exact ⟨memory, rfl, hrep⟩
  | cons hstep _ ih =>
      obtain ⟨memory₁, hcall, hrep₁⟩ := hrep.step hstep
      obtain ⟨memory', hcalls, hrep'⟩ := ih hrep₁
      refine ⟨memory', ?_, hrep'⟩
      rw [hlistCalls, List.foldlM_cons, hcall]
      exact hcalls

end NickDB

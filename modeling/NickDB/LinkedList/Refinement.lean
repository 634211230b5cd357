import NickDB.LinkedList.Joins
import NickDB.LinkedList.Lists
import NickDB.Support.RingFamily

/-!
# The linked lists refine a family of lists

The memory represents a family of lists when its pointers close each list into
a ring with its head and the deleted entries hold the poison values.  A
permitted call does not fault, and leads to a memory that represents the lists
after it; a call that uses a deleted entry as one of a list faults.
-/

namespace NickDB

open Rings ListFamily Runs

variable {α : Type}

/-- The entries hold the poison values. -/
def Poisoned (memory : ListMemory α) (deleted : Set α) : Prop :=
  ∀ u ∈ deleted, memory u = ⟨.poison1, .poison2⟩

/-- The memory represents the lists. -/
structure RepresentsLists (memory : ListMemory α) (world : ListWorld α) :
    Prop where
  rings : RingsOf (listLinks memory) world.entries
  poisoned : Poisoned memory world.deleted

variable {memory memory' : ListMemory α} {world world' : ListWorld α}
  {entries : Entries α} {deleted : Set α} {call : ListCall α} {u v h k : α}
  {xs ys : List α}

theorem representsLists_empty : RepresentsLists memory ListWorld.empty where
  rings := fun _ _ h => nomatch h
  poisoned := fun _ hu => absurd hu (Set.notMem_empty _)

/-! ## Poisoned entries -/

theorem Poisoned.diff (hpoisoned : Poisoned memory deleted) :
    Poisoned memory (deleted \ {u}) :=
  fun w hw => hpoisoned w hw.1

/-- A node of a list is not poisoned. -/
theorem ListWorld.notMem_deleted (hu : Holds world.entries u) :
    u ∉ world.deleted := fun hmem => world.deleted_free u hmem hu

/-! ## Reading the pointers of a list -/

theorem next_of_entries (hrings : RingsOf (listLinks memory) entries)
    (hxs : entries h = some xs) : (memory h).next = .node (xs.headD h) :=
  (joined_iff.mp (hrings _ _ hxs).joined_first).1

theorem prev_of_entries (hrings : RingsOf (listLinks memory) entries)
    (hxs : entries h = some xs) : (memory h).prev = .node (xs.getLastD h) :=
  (joined_iff.mp (hrings _ _ hxs).joined_last).2

theorem headD_eq_head_iff (hs : Separated entries) (hxs : entries h = some xs) :
    xs.headD h = h ↔ xs = [] := by
  constructor
  · intro heq
    by_contra hne
    have hnodup := List.nodup_cons.mp (hs.nodup hxs)
    exact hnodup.1 (heq ▸ headD_mem hne)
  · rintro rfl
    rfl

variable [DecidableEq α]

/-- The function that a call names. -/
def listCall (memory : ListMemory α) : ListCall α → Option (ListMemory α)
  | .init ptr => initListHead memory (.node ptr)
  | .add new head => listAdd memory (.node new) (.node head)
  | .addTail new head => listAddTail memory (.node new) (.node head)
  | .del entry => listDel memory (.node entry)
  | .delInit entry => listDelInit memory (.node entry)
  | .move list head => listMove memory (.node list) (.node head)
  | .moveTail list head => listMoveTail memory (.node list) (.node head)
  | .splice list head => listSplice memory (.node list) (.node head)
  | .spliceInit list head => listSpliceInit memory (.node list) (.node head)

/-- Calls made one after the other. -/
def listCalls (memory : ListMemory α) (calls : List (ListCall α)) :
    Option (ListMemory α) :=
  calls.foldlM listCall memory

theorem Poisoned.join (hpoisoned : Poisoned memory deleted) (hu : u ∉ deleted)
    (hv : v ∉ deleted) : Poisoned (joinMemory memory u v) deleted := by
  intro w hw
  rw [joinMemory, if_neg (ne_of_mem_of_not_mem hw hu),
    if_neg (ne_of_mem_of_not_mem hw hv)]
  exact hpoisoned w hw

theorem Poisoned.insert (hpoisoned : Poisoned memory deleted) :
    Poisoned (poisonMemory memory u) (insert u deleted) := by
  intro w hw
  by_cases hwu : w = u
  · rw [poisonMemory, hwu, Function.update_self]
  · rw [poisonMemory, Function.update_of_ne hwu]
    exact hpoisoned w (Set.mem_of_mem_insert_of_ne hw hwu)

/-- `list_empty` on a head. -/
theorem listEmpty_of_entries (hrings : RingsOf (listLinks memory) entries)
    (hs : Separated entries) (hxs : entries h = some xs) :
    listEmpty memory (.node h) = some (decide (xs = [])) := by
  rw [listEmpty_eq (next_of_entries hrings hxs)]
  simp only [headD_eq_head_iff hs hxs]

/-! ## The parts of the calls -/

/-- Taking an entry out of its list. -/
theorem listDelEntry_of_linked (hrings : RingsOf (listLinks memory) entries)
    (hs : Separated entries)
    (hu : entries u = some [] ∨ ∃ h xs, entries h = some xs ∧ u ∈ xs) :
    ∃ p n, listDelEntry memory (.node u) = some (joinMemory memory p n) ∧
      Holds entries p ∧ Holds entries n ∧
      RingsOf (listLinks (joinMemory memory p n)) (detach entries u) := by
  obtain ⟨p, n, hprev, hnext, hp, hn, hdetached⟩ := hrings.detach hs hu
  rw [← listLinks_join] at hdetached
  exact ⟨p, n, listDelEntry_eq (address?_eq_some_iff.mp hprev)
    (address?_eq_some_iff.mp hnext), hp, hn, hdetached⟩

/-- Adding a detached node behind a head. -/
theorem listAdd_of_detached
    (hrings : RingsOf (listLinks memory) (detach entries u))
    (hs : Separated entries) (hne : u ≠ h) (hh : ∃ xs, entries h = some xs)
    (hpoisoned : Poisoned memory deleted) (hu : u ∉ deleted)
    (hfree : ∀ w ∈ deleted, ¬Holds entries w) :
    ∃ memory', listAdd memory (.node u) (.node h) = some memory' ∧
      RingsOf (listLinks memory') (pushEntry entries u h) ∧
      Poisoned memory' deleted := by
  have hxs := detach_entriesOf hne hh
  have hpushed := hrings.push hs.detach hxs hs.not_holds_detach
  rw [← listLinks_join, ← listLinks_join] at hpushed
  refine ⟨_, listAdd_eq (next_of_entries hrings hxs), hpushed, ?_⟩
  have hheld : ∀ v ∈ h :: entriesOf (detach entries u) h, v ∉ deleted :=
    fun v hv hmem => hfree v hmem (holds_of_detach ⟨h, _, hxs, hv⟩)
  exact (hpoisoned.join hu (hheld _ headD_mem_cons)).join
    (hheld h List.mem_cons_self) hu

/-- Adding a detached node before a head. -/
theorem listAddTail_of_detached
    (hrings : RingsOf (listLinks memory) (detach entries u))
    (hs : Separated entries) (hne : u ≠ h) (hh : ∃ xs, entries h = some xs)
    (hpoisoned : Poisoned memory deleted) (hu : u ∉ deleted)
    (hfree : ∀ w ∈ deleted, ¬Holds entries w) :
    ∃ memory', listAddTail memory (.node u) (.node h) = some memory' ∧
      RingsOf (listLinks memory') (appendEntry entries u h) ∧
      Poisoned memory' deleted := by
  have hxs := detach_entriesOf hne hh
  have happended := hrings.append hs.detach hxs hs.not_holds_detach
  rw [← listLinks_join, ← listLinks_join] at happended
  refine ⟨_, listAddTail_eq (prev_of_entries hrings hxs), happended, ?_⟩
  have hheld : ∀ v ∈ h :: entriesOf (detach entries u) h, v ∉ deleted :=
    fun v hv hmem => hfree v hmem (holds_of_detach ⟨h, _, hxs, hv⟩)
  exact (hpoisoned.join hu (hheld h List.mem_cons_self)).join
    (hheld _ List.getLastD_mem_cons) hu

/-- A node that is an entry of no list becomes the head of an empty list. -/
theorem initListHead_rings (hrings : RingsOf (listLinks memory) entries)
    (hu : ∀ k ys, entries k = some ys → u ∉ ys) :
    RingsOf (listLinks (joinMemory memory u u)) (assign entries u []) := by
  have hinit := hrings.init hu
  rwa [← listLinks_join] at hinit

/-! ## One step -/

/-- The entry is out of its list, the other lists and the poisoned entries are
as before. -/
theorem RepresentsLists.delEntry (hrep : RepresentsLists memory world)
    (hu : world.Linked u) :
    ∃ memory', listDelEntry memory (.node u) = some memory' ∧
      RingsOf (listLinks memory') (detach world.entries u) ∧
      Poisoned memory' world.deleted := by
  obtain ⟨p, n, hdel, hp, hn, hrings⟩ :=
    listDelEntry_of_linked hrep.rings world.separated hu
  exact ⟨_, hdel, hrings, hrep.poisoned.join (ListWorld.notMem_deleted hp)
    (ListWorld.notMem_deleted hn)⟩

/-- The entries of one list are behind the head of another. -/
theorem RepresentsLists.spliceNonempty (hrep : RepresentsLists memory world)
    (hys : world.entries k = some ys) (hxs : world.entries h = some xs)
    (hkh : k ≠ h) (hne : ys ≠ []) :
    ∃ memory', listSpliceNonempty memory (.node k) (.node h) = some memory' ∧
      RingsOf (listLinks memory') (spliceEntries world.entries k h) ∧
      Poisoned memory' world.deleted := by
  have hspliced := hrep.rings.splice world.separated hxs hys hkh hne
  rw [← listLinks_join, ← listLinks_join] at hspliced
  have hk : ∀ v ∈ k :: ys, v ∉ world.deleted :=
    fun v hv => ListWorld.notMem_deleted ⟨k, ys, hys, hv⟩
  have hh : ∀ v ∈ h :: xs, v ∉ world.deleted :=
    fun v hv => ListWorld.notMem_deleted ⟨h, xs, hxs, hv⟩
  refine ⟨_, listSpliceNonempty_eq (next_of_entries hrep.rings hys)
    (prev_of_entries hrep.rings hys) (next_of_entries hrep.rings hxs), ?_, ?_⟩
  · rw [spliceEntries, entriesOf_eq hys, entriesOf_eq hxs]
    exact hspliced
  · exact (hrep.poisoned.join (hh h List.mem_cons_self)
      (hk _ headD_mem_cons)).join (hk _ List.getLastD_mem_cons)
      (hh _ headD_mem_cons)

/-- A permitted call does not fault and leads to a memory that represents the
lists after it. -/
theorem RepresentsLists.step (hrep : RepresentsLists memory world)
    (hstep : listsStep world call world') :
    ∃ memory', listCall memory call = some memory' ∧
      RepresentsLists memory' world' := by
  obtain ⟨hcall, hentries, hdeleted⟩ := hstep
  have hs := world.separated
  have hfree := world.deleted_free
  suffices hsuffices : ∃ memory', listCall memory call = some memory' ∧
      RingsOf (listLinks memory') (call.entriesAfter world.entries) ∧
      Poisoned memory' (call.deletedAfter world.deleted) by
    obtain ⟨memory', hresult, hrings, hpoisoned⟩ := hsuffices
    exact ⟨memory', hresult, hentries ▸ hrings, hdeleted ▸ hpoisoned⟩
  cases call with
  | init ptr =>
      refine ⟨_, initListHead_node, initListHead_rings hrep.rings hcall, ?_⟩
      exact hrep.poisoned.diff.join (fun hu => hu.2 rfl) (fun hu => hu.2 rfl)
  | add new head =>
      exact listAdd_of_detached (hrep.rings.detach_alone hcall.1) hs hcall.2.1
        hcall.2.2 hrep.poisoned.diff (fun hu => hu.2 rfl)
        (fun w hw => hfree w hw.1)
  | addTail new head =>
      exact listAddTail_of_detached (hrep.rings.detach_alone hcall.1) hs
        hcall.2.1 hcall.2.2 hrep.poisoned.diff (fun hu => hu.2 rfl)
        (fun w hw => hfree w hw.1)
  | del entry =>
      obtain ⟨memory₁, hdel, hrings, hpoisoned⟩ := hrep.delEntry hcall
      refine ⟨_, listDel_eq hdel, ?_, hpoisoned.insert⟩
      apply hrings.congr hs.not_holds_detach
      · intro x hx
        simp only [listLinks, poisonMemory, Function.update_of_ne hx]
      · intro x hx
        simp only [listLinks, poisonMemory, Function.update_of_ne hx]
  | delInit entry =>
      obtain ⟨memory₁, hdel, hrings, hpoisoned⟩ := hrep.delEntry hcall
      have hentry := ListWorld.notMem_deleted hcall.holds
      refine ⟨_, listDelInit_eq hdel, initListHead_rings hrings ?_,
        hpoisoned.join hentry hentry⟩
      intro k ys hys hmem
      exact hs.not_holds_detach ⟨k, ys, hys, List.mem_cons_of_mem k hmem⟩
  | move list head =>
      obtain ⟨memory₁, hdel, hrings, hpoisoned⟩ := hrep.delEntry hcall.1
      rw [listCall, listMove, hdel]
      exact listAdd_of_detached hrings hs hcall.2.1 hcall.2.2 hpoisoned
        (ListWorld.notMem_deleted hcall.1.holds) hfree
  | moveTail list head =>
      obtain ⟨memory₁, hdel, hrings, hpoisoned⟩ := hrep.delEntry hcall.1
      rw [listCall, listMoveTail, hdel]
      exact listAddTail_of_detached hrings hs hcall.2.1 hcall.2.2 hpoisoned
        (ListWorld.notMem_deleted hcall.1.holds) hfree
  | splice list head =>
      obtain ⟨⟨ys, hys⟩, hne, xs, hxs⟩ := hcall
      have hempty := listEmpty_of_entries hrep.rings hs hys
      rw [listCall, listSplice, hempty, ListCall.entriesAfter, hys]
      by_cases hys' : ys = []
      · simp only [hys', decide_true, if_true]
        exact ⟨memory, rfl, hrep.rings, hrep.poisoned⟩
      · simp only [hys', decide_false, Option.some.injEq, if_false]
        exact hrep.spliceNonempty hys hxs hne hys'
  | spliceInit list head =>
      obtain ⟨⟨ys, hys⟩, hne, xs, hxs⟩ := hcall
      have hempty := listEmpty_of_entries hrep.rings hs hys
      rw [listCall, listSpliceInit, hempty, ListCall.entriesAfter, hys]
      by_cases hys' : ys = []
      · simp only [hys', decide_true, if_true]
        exact ⟨memory, rfl, hrep.rings, hrep.poisoned⟩
      · simp only [hys', decide_false, Option.some.injEq, if_false]
        obtain ⟨memory₁, hspliced, hrings, hpoisoned⟩ :=
          hrep.spliceNonempty hys hxs hne hys'
        have hlist := ListWorld.notMem_deleted
          ⟨list, ys, hys, List.mem_cons_self⟩
        refine ⟨_, ?_, initListHead_rings hrings ?_, hpoisoned.join hlist hlist⟩
        · simp [hspliced, initListHead_node]
        · intro j zs hzs hmem
          exact not_holds_spliceEntries hs hne hys hxs
            ⟨j, zs, hzs, List.mem_cons_of_mem j hmem⟩

end NickDB

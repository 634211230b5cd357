import NickDB.LinkedList.Traversal

/-!
# Sessions with linked lists

Sequences of permitted calls, from memory with any contents.  The calls refine
the family of lists, a traversal shows exactly the list, and the poison values
of a deleted entry make every use of it fault.
-/

namespace NickDB

open Rings ListFamily Runs Loops

variable {α : Type} [DecidableEq α] {memory memory' : ListMemory α}
  {world world' : ListWorld α} {calls : List (ListCall α)} {call : ListCall α}
  {u h k : α} {xs ys : List α}

theorem listCalls_append {calls' : List (ListCall α)}
    (hcalls : listCalls memory calls = some memory') :
    listCalls memory (calls ++ calls') = listCalls memory' calls' := by
  rw [listCalls, List.foldlM_append]
  rw [listCalls] at hcalls
  rw [hcalls]
  rfl

theorem listCalls_singleton :
    listCalls memory [call] = listCall memory call := by
  simp [listCalls]

/-- Permitted calls do not fault. -/
theorem RepresentsLists.run (hrep : RepresentsLists memory world)
    (hrun : Run listsStep world calls world') :
    ∃ memory', listCalls memory calls = some memory' ∧
      RepresentsLists memory' world' := by
  induction hrun generalizing memory with
  | nil world => exact ⟨memory, rfl, hrep⟩
  | cons hstep _ ih =>
      obtain ⟨memory₁, hcall, hrep₁⟩ := hrep.step hstep
      obtain ⟨memory', hcalls, hrep'⟩ := ih hrep₁
      refine ⟨memory', ?_, hrep'⟩
      rw [listCalls, List.foldlM_cons, hcall]
      exact hcalls

/-! ## A sample session -/

/-- Two heads, an entry of the second, and one that was deleted from the
first. -/
def sampleCalls : List (ListCall ℕ) :=
  [.init 0, .init 1, .addTail 2 1, .addTail 3 0, .del 3]

/-- The lists of the heads 0 and 1 only. -/
def twoLists (xs ys : List ℕ) : Entries ℕ := fun h =>
  if h = 0 then some xs else if h = 1 then some ys else none

theorem run_sampleCalls : ∃ world : ListWorld ℕ,
    Run listsStep ListWorld.empty sampleCalls world ∧
      world.entries = twoLists [] [2] ∧ world.deleted = {3} := by
  have hfirst : (ListCall.init 0).Permitted (@ListWorld.empty ℕ) := by
    intro h xs hxs
    cases hxs
  obtain ⟨w₁, h₁⟩ := listsStep_of_permitted hfirst
  have hsecond : (ListCall.init 1).Permitted w₁ := by
    intro h xs
    simp only [h₁.2.1, ListCall.entriesAfter, ListWorld.empty, assign,
      Function.update_apply]
    grind
  obtain ⟨w₂, h₂⟩ := listsStep_of_permitted hsecond
  have e₂ : w₂.entries = twoLists [] [] := by
    rw [h₂.2.1, h₁.2.1]
    funext h
    simp only [ListCall.entriesAfter, ListWorld.empty, assign, twoLists,
      Function.update_apply]
    grind
  have hthird : (ListCall.addTail 2 1).Permitted w₂ := by
    refine ⟨?_, by decide, [], by rw [e₂]; rfl⟩
    intro h xs
    rw [e₂, twoLists]
    grind
  obtain ⟨w₃, h₃⟩ := listsStep_of_permitted hthird
  have e₃ : w₃.entries = twoLists [] [2] := by
    rw [h₃.2.1, e₂]
    funext h
    simp only [ListCall.entriesAfter, appendEntry, assign, detach, entriesOf,
      twoLists, Function.update_apply]
    grind
  have hfourth : (ListCall.addTail 3 0).Permitted w₃ := by
    refine ⟨?_, by decide, [], by rw [e₃]; rfl⟩
    intro h xs
    rw [e₃, twoLists]
    grind
  obtain ⟨w₄, h₄⟩ := listsStep_of_permitted hfourth
  have e₄ : w₄.entries = twoLists [3] [2] := by
    rw [h₄.2.1, e₃]
    funext h
    simp only [ListCall.entriesAfter, appendEntry, assign, detach, entriesOf,
      twoLists, Function.update_apply]
    grind
  have hfifth : (ListCall.del 3).Permitted w₄ :=
    Or.inr ⟨0, [3], by rw [e₄]; rfl, List.mem_singleton_self 3⟩
  obtain ⟨w₅, h₅⟩ := listsStep_of_permitted hfifth
  have e₅ : w₅.entries = twoLists [] [2] := by
    rw [h₅.2.1, e₄]
    funext h
    simp only [ListCall.entriesAfter, detach, twoLists]
    grind
  have hrun : Run listsStep ListWorld.empty sampleCalls w₅ :=
    .cons h₁ (.cons h₂ (.cons h₃ (.cons h₄ (.cons h₅ (.nil w₅)))))
  refine ⟨w₅, hrun, e₅, ?_⟩
  rw [h₅.2.2, h₄.2.2, h₃.2.2, h₂.2.2, h₁.2.2]
  simp [ListCall.deletedAfter, ListWorld.empty]

/-- Memory that nothing was written to. -/
def blankMemory : ListMemory ℕ := fun _ => ⟨.null, .null⟩

/-! ## Every list is what the calls have made of it -/

/-- From memory with any contents, a sequence of permitted calls runs without a
fault, and then every list is what the calls have made of it: `list_empty` tells
whether it has entries, and the loops visit exactly its entries, in order and
backwards. -/
theorem list_calls_refine (memory : ListMemory α)
    (hrun : Run listsStep ListWorld.empty calls world) :
    ∃ memory', listCalls memory calls = some memory' ∧
      ∀ h xs, world.entries h = some xs → Observed memory' h xs := by
  have hempty : RepresentsLists memory ListWorld.empty := representsLists_empty
  obtain ⟨memory', hcalls, hrep⟩ := hempty.run hrun
  exact ⟨memory', hcalls, fun h xs hxs => hrep.observed hxs⟩

theorem list_calls_refine_sample :
    ∃ memory', listCalls blankMemory sampleCalls = some memory' ∧
      Observed memory' 0 [] ∧ Observed memory' 1 [2] := by
  obtain ⟨world, hrun, hentries, -⟩ := run_sampleCalls
  obtain ⟨memory', hcalls, hobserved⟩ := list_calls_refine blankMemory hrun
  exact ⟨memory', hcalls, hobserved 0 [] (by rw [hentries]; rfl),
    hobserved 1 [2] (by rw [hentries]; rfl)⟩

/-! ## Deleted entries -/

/-- The call uses an entry that `list_del` has taken out of its list. -/
def ListCall.UsesDeleted (world : ListWorld α) : ListCall α → Prop
  | .init _ => False
  | .add _ head => head ∈ world.deleted
  | .addTail _ head => head ∈ world.deleted
  | .del entry => entry ∈ world.deleted
  | .delInit entry => entry ∈ world.deleted
  | .move list head =>
      list ∈ world.deleted ∨ world.Linked list ∧ head ∈ world.deleted
  | .moveTail list head =>
      list ∈ world.deleted ∨ world.Linked list ∧ head ∈ world.deleted
  | .splice list head =>
      list ∈ world.deleted ∨
        (∃ ys, world.entries list = some ys ∧ ys ≠ []) ∧ head ∈ world.deleted
  | .spliceInit list head =>
      list ∈ world.deleted ∨
        (∃ ys, world.entries list = some ys ∧ ys ≠ []) ∧ head ∈ world.deleted

section Poison

variable (hpoison : memory h = ⟨.poison1, .poison2⟩)
include hpoison

theorem listAdd_poisoned : listAdd memory (.node u) (.node h) = none := by
  rw [listAdd, readNext_node, hpoison]
  rfl

theorem listAddTail_poisoned :
    listAddTail memory (.node u) (.node h) = none := by
  rw [listAddTail, readPrev_node, hpoison]
  rfl

theorem listDelEntry_poisoned : listDelEntry memory (.node h) = none := by
  rw [listDelEntry, readPrev_node, readNext_node, hpoison]
  rfl

theorem listEmpty_poisoned : listEmpty memory (.node h) = some false := by
  rw [listEmpty, readNext_node, hpoison]
  rfl

theorem listSpliceNonempty_from_poisoned :
    listSpliceNonempty memory (.node h) (.node u) = none := by
  rw [listSpliceNonempty, readNext_node, readPrev_node, hpoison]
  rfl

/-- The last write of `__list_splice` faults. -/
theorem listSpliceNonempty_to_poisoned :
    listSpliceNonempty memory (.node u) (.node h) = none := by
  rw [listSpliceNonempty, readNext_node, readPrev_node, readNext_node, hpoison]
  simp only [Option.bind_eq_bind, Option.bind_some, Option.bind_eq_none_iff]
  intro _ _ _ _ _ _
  rfl

/-- A loop over the list of a deleted entry faults after its first body. -/
theorem not_listForEach_poisoned {σ : Type} {mem : σ → ListMemory α}
    {visit : ListPtr α → σ → Option σ} {start finish : σ}
    (hstart : mem start = memory) :
    ¬ListForEach mem visit h start finish := by
  intro ⟨pos, tested, hpos, hends⟩
  rw [hstart, readNext_node, hpoison] at hpos
  obtain rfl := Option.some.inj hpos
  let I : ListPtr α × σ → Prop := fun state => state.1 = .poison1
  have htest : ∀ s, I s → forEachTest h s = some true := by
    intro s hs
    rw [forEachTest, hs]
    rfl
  have hbody : ∀ s t, I s →
      forEachBody readNext mem visit s = some t → I t := by
    intro s t hs ht
    simp only [forEachBody, Option.bind_eq_bind, Option.bind_eq_some_iff] at ht
    obtain ⟨after, -, pos, hpos, -⟩ := ht
    have hs' : s.1 = .poison1 := hs
    rw [hs'] at hpos
    cases hpos
  exact not_ends_of_invariant htest hbody rfl hends

end Poison

/-- No other entry is deleted by taking one out of its list. -/
theorem RepresentsLists.poison_kept (hrep : RepresentsLists memory world)
    (hu : world.Linked u) (hh : h ∈ world.deleted) :
    ∃ memory', listDelEntry memory (.node u) = some memory' ∧
      memory' h = ⟨.poison1, .poison2⟩ := by
  obtain ⟨memory', hdel, -, hpoisoned⟩ := hrep.delEntry hu
  exact ⟨memory', hdel, hpoisoned h hh⟩

theorem RepresentsLists.deleted_faults (hrep : RepresentsLists memory world)
    (hcall : call.UsesDeleted world) : listCall memory call = none := by
  have hpoison := hrep.poisoned
  cases call with
  | init ptr => exact hcall.elim
  | add new head => exact listAdd_poisoned (hpoison head hcall)
  | addTail new head => exact listAddTail_poisoned (hpoison head hcall)
  | del entry =>
      rw [listCall, listDel, listDelEntry_poisoned (hpoison entry hcall)]
      rfl
  | delInit entry =>
      rw [listCall, listDelInit, listDelEntry_poisoned (hpoison entry hcall)]
      rfl
  | move list head =>
      rw [listCall, listMove]
      rcases hcall with hlist | ⟨hlist, hhead⟩
      · rw [listDelEntry_poisoned (hpoison list hlist)]
        rfl
      · obtain ⟨memory', hdel, hpoison'⟩ := hrep.poison_kept hlist hhead
        rw [hdel]
        exact listAdd_poisoned hpoison'
  | moveTail list head =>
      rw [listCall, listMoveTail]
      rcases hcall with hlist | ⟨hlist, hhead⟩
      · rw [listDelEntry_poisoned (hpoison list hlist)]
        rfl
      · obtain ⟨memory', hdel, hpoison'⟩ := hrep.poison_kept hlist hhead
        rw [hdel]
        exact listAddTail_poisoned hpoison'
  | splice list head =>
      rw [listCall, listSplice]
      rcases hcall with hlist | ⟨⟨ys, hys, hne⟩, hhead⟩
      · rw [listEmpty_poisoned (hpoison list hlist)]
        exact listSpliceNonempty_from_poisoned (hpoison list hlist)
      · rw [listEmpty_of_entries hrep.rings world.separated hys]
        simp only [hne, decide_false, Option.bind_eq_bind, Option.bind_some]
        exact listSpliceNonempty_to_poisoned (hpoison head hhead)
  | spliceInit list head =>
      rw [listCall, listSpliceInit]
      rcases hcall with hlist | ⟨⟨ys, hys, hne⟩, hhead⟩
      · rw [listEmpty_poisoned (hpoison list hlist)]
        simp [listSpliceNonempty_from_poisoned (hpoison list hlist)]
      · rw [listEmpty_of_entries hrep.rings world.separated hys]
        simp [hne, listSpliceNonempty_to_poisoned (hpoison head hhead)]

/-- After any sequence of permitted calls, every call that uses a deleted entry
as one of a list faults, `list_empty` of a deleted entry is false, and no loop
over its list ends. -/
theorem deleted_entries_fault (memory : ListMemory α)
    (hrun : Run listsStep ListWorld.empty calls world) :
    ∃ memory', listCalls memory calls = some memory' ∧
      (∀ call : ListCall α, call.UsesDeleted world →
        listCall memory' call = none) ∧
      ∀ u ∈ world.deleted, listEmpty memory' (.node u) = some false ∧
        ∀ (visit : ListPtr α → ListMemory α → Option (ListMemory α)) finish,
          ¬ListForEach id visit u memory' finish := by
  have hempty : RepresentsLists memory ListWorld.empty := representsLists_empty
  obtain ⟨memory', hcalls, hrep⟩ := hempty.run hrun
  refine ⟨memory', hcalls, fun call hcall => hrep.deleted_faults hcall, ?_⟩
  intro u hu
  have hpoison := hrep.poisoned u hu
  exact ⟨listEmpty_poisoned hpoison, fun visit finish =>
    not_listForEach_poisoned hpoison rfl⟩

theorem deleted_entries_fault_sample :
    ∃ memory', listCalls blankMemory sampleCalls = some memory' ∧
      listCall memory' (.del 3) = none ∧
      listCall memory' (.add 2 3) = none := by
  obtain ⟨world, hrun, -, hdeleted⟩ := run_sampleCalls
  obtain ⟨memory', hcalls, hfaults, -⟩ := deleted_entries_fault blankMemory hrun
  have hmem : 3 ∈ world.deleted := by
    rw [hdeleted]
    exact Set.mem_singleton 3
  exact ⟨memory', hcalls, hfaults (.del 3) hmem, hfaults (.add 2 3) hmem⟩

/-! ## The head of a list that was spliced away -/

/-- The caller's code does not write to the lists. -/
def ReadOnly {σ : Type} (mem : σ → ListMemory α)
    (visit : ListPtr α → σ → Option σ) : Prop :=
  ∀ pos s s', visit pos s = some s' → mem s' = mem s

/-- Pointers that lead from a node outside a list into it never lead back. -/
theorem RepresentsLists.not_listForEach_stale {σ : Type}
    {mem : σ → ListMemory α} {visit : ListPtr α → σ → Option σ}
    {start finish : σ} (hrep : RepresentsLists (mem start) world)
    (hvisit : ReadOnly mem visit) (hxs : world.entries h = some xs)
    (hk : k ∉ h :: xs) (hu : u ∈ h :: xs)
    (hnext : (mem start k).next = .node u) :
    ¬ListForEach mem visit k start finish := by
  intro ⟨pos, tested, hpos, hends⟩
  obtain rfl := Option.some.inj ((congrArg some hnext).symm.trans hpos)
  let I : ListPtr α × σ → Prop := fun state =>
    mem state.2 = mem start ∧ ∃ v ∈ h :: xs, state.1 = .node v
  have htest : ∀ s, I s → forEachTest k s = some true := by
    rintro s ⟨-, v, hv, hpos⟩
    have hvk : v ≠ k := ne_of_mem_of_not_mem hv hk
    simp [forEachTest, hpos, hvk]
  have hbody : ∀ s t, I s →
      forEachBody readNext mem visit s = some t → I t := by
    rintro s t ⟨hmem, v, hv, hpos⟩ ht
    simp only [forEachBody, Option.bind_eq_bind, Option.bind_eq_some_iff, hpos,
      readNext_node] at ht
    obtain ⟨after, hafter, next, hnext, ht⟩ := ht
    obtain rfl := Option.some.inj ht
    obtain ⟨w, hw, hjoined⟩ := hrep.rings.joined_mem hxs hv
    have hsame : mem after = mem start := (hvisit _ _ _ hafter).trans hmem
    refine ⟨hsame, w, hw, ?_⟩
    rw [← Option.some.inj hnext, hsame]
    exact (joined_iff.mp hjoined).1
  exact not_ends_of_invariant htest hbody ⟨rfl, u, hu, rfl⟩ hends

/-- `list_splice` does not write to the head whose entries it takes. -/
theorem RepresentsLists.splice_stale (hrep : RepresentsLists memory world)
    (hys : world.entries k = some ys) (hxs : world.entries h = some xs)
    (hkh : k ≠ h) (hne : ys ≠ [])
    (hcall : listCall memory (.splice k h) = some memory') :
    (memory' k).next = .node (ys.headD k) := by
  have hnext := next_of_entries hrep.rings hys
  have hprev := prev_of_entries hrep.rings hys
  rw [listCall, listSplice,
    listEmpty_of_entries hrep.rings world.separated hys] at hcall
  simp only [hne, decide_false, Option.bind_eq_bind, Option.bind_some] at hcall
  have hspliced := listSpliceNonempty_eq hnext hprev
    (next_of_entries hrep.rings hxs)
  obtain rfl := Option.some.inj (hspliced.symm.trans hcall)
  have hlast : k ≠ ys.getLastD k := by
    have hnodup := List.nodup_cons.mp (world.separated.nodup hys)
    exact (ne_of_mem_of_not_mem (getLastD_mem hne) hnodup.1).symm
  simp only [joinMemory, if_neg hlast, if_neg hkh, hnext]

/-- After any sequence of permitted calls, `list_splice` puts the entries of a
nonempty list in front of those of another, but its old head still points at
them: it is not empty for `list_empty`, and no loop over it that only reads ever
ends. -/
theorem spliced_head_stale (memory : ListMemory α)
    (hrun : Run listsStep ListWorld.empty calls world)
    (hys : world.entries k = some ys) (hxs : world.entries h = some xs)
    (hkh : k ≠ h) (hne : ys ≠ []) :
    ∃ memory', listCalls memory (calls ++ [.splice k h]) = some memory' ∧
      Observed memory' h (ys ++ xs) ∧
      listEmpty memory' (.node k) = some false ∧
      ∀ (σ : Type) (mem : σ → ListMemory α) visit start finish,
        ReadOnly mem visit → mem start = memory' →
        ¬ListForEach mem visit k start finish := by
  have hempty : RepresentsLists memory ListWorld.empty := representsLists_empty
  obtain ⟨memory₁, hcalls, hrep⟩ := hempty.run hrun
  have hpermitted : (ListCall.splice k h).Permitted world :=
    ⟨⟨ys, hys⟩, hkh, xs, hxs⟩
  obtain ⟨world', hstep⟩ := listsStep_of_permitted hpermitted
  obtain ⟨memory', hcall, hrep'⟩ := hrep.step hstep
  have hspliced : world'.entries = spliceEntries world.entries k h := by
    rw [hstep.2.1, ListCall.entriesAfter, hys, if_neg (by simpa using hne)]
  have hentries : world'.entries h = some (ys ++ xs) := by
    rw [hspliced, spliceEntries, assign_self, entriesOf_eq hys,
      entriesOf_eq hxs]
  have hnext := hrep.splice_stale hys hxs hkh hne hcall
  have hfirst : ys.headD k ∈ h :: (ys ++ xs) :=
    List.mem_cons_of_mem h (List.mem_append_left xs (headD_mem hne))
  have hk : k ∉ h :: (ys ++ xs) := by
    intro hmem
    apply not_holds_spliceEntries world.separated hkh hys hxs
    exact ⟨h, _, hspliced ▸ hentries, hmem⟩
  refine ⟨memory', ?_, hrep'.observed hentries, ?_, ?_⟩
  · rw [listCalls_append hcalls, listCalls_singleton, hcall]
  · rw [listEmpty_eq hnext, decide_eq_false (ne_of_mem_of_not_mem hfirst hk)]
  · rintro σ mem visit start finish hvisit rfl
    exact hrep'.not_listForEach_stale hvisit hentries hk hfirst hnext

theorem spliced_head_stale_sample :
    ∃ memory', listCalls blankMemory (sampleCalls ++ [.splice 1 0]) =
        some memory' ∧ Observed memory' 0 [2] ∧
      listEmpty memory' (.node 1) = some false := by
  obtain ⟨world, hrun, hentries, -⟩ := run_sampleCalls
  obtain ⟨memory', hcalls, hobserved, hstale, -⟩ :=
    spliced_head_stale blankMemory hrun
      (show world.entries 1 = some [2] by rw [hentries]; rfl)
      (show world.entries 0 = some [] by rw [hentries]; rfl)
      (by decide) (by decide)
  exact ⟨memory', hcalls, hobserved, hstale⟩

end NickDB

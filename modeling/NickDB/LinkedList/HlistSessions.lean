import NickDB.LinkedList.HlistRefinement

/-!
# Sessions with hlists

Sequences of permitted calls on `hlist`s, from memory with any contents, what
the loops then show, and loops that take nodes out of the list.
-/

namespace NickDB

open SlotChains Runs Loops

variable {κ ν σ : Type}

/-! ## The rule of the loops -/

section Rules

variable [DecidableEq ν] {mem : σ → HlistMemory κ ν}
  {visit : ListPtr ν → σ → Option σ}
  {body : ListPtr ν × σ → Option (ListPtr ν × σ)} {Inv : List ν → σ → Prop}
  {start : σ} {xs : List ν} {h : κ}

/-- A loop whose body goes from a node to one further on in the list, or to its
end, with an invariant of the nodes to come. -/
theorem hlistLoop_ends_iff
    (hbody : ∀ x rest s, Inv (x :: rest) s → ∃ rest' s',
      body (.node x, s) = some (contentPtr rest'.head?, s') ∧
        Inv rest' s' ∧ rest'.length ≤ rest.length)
    (hstart : Inv xs start) :
    ∃ finish, Inv [] finish ∧
      ∀ s, (∃ last tested, Ends (hlistTest mem) body
        (contentPtr xs.head?, start) tested (last, s)) ↔ s = finish := by
  obtain ⟨n, hn⟩ : ∃ n, xs.length ≤ n := ⟨_, le_refl _⟩
  -- the nodes to come become fewer with every turn
  induction n generalizing xs start with
  | zero =>
      obtain rfl := List.length_eq_zero_iff.mp (Nat.le_zero.mp hn)
      refine ⟨start, hstart, fun s => ?_⟩
      have htest : hlistTest mem (contentPtr ([] : List ν).head?, start) =
          some false := by
        simp [hlistTest, contentPtr]
      simp only [ends_of_false htest]
      constructor
      · rintro ⟨last, tested, -, hlast⟩
        exact (Prod.mk.inj hlast).2
      · rintro rfl
        exact ⟨_, _, rfl, rfl⟩
  | succ n ih =>
      cases xs with
      | nil => exact ih hstart (Nat.zero_le n)
      | cons x rest =>
          obtain ⟨rest', s', hstep, hs', hlength⟩ := hbody x rest start hstart
          rw [List.length_cons] at hn
          obtain ⟨finish, hfinish, hends⟩ := ih hs' (by omega)
          refine ⟨finish, hfinish, fun s => ?_⟩
          have htest : hlistTest mem (contentPtr (x :: rest).head?, start) =
              some true := by
            simp [hlistTest, contentPtr, hlistNext_node]
          rw [← hends s]
          simp only [ends_of_true htest hstep]
          constructor
          · rintro ⟨last, tested, rest, -, hends⟩
            exact ⟨last, rest, hends⟩
          · rintro ⟨last, rest, hends⟩
            exact ⟨last, _, rest, rfl, hends⟩

/-- The plain loop: it goes where the pointer of the node leads after the body,
to the next node, to one further on or to the end. -/
theorem hlistForEach_ends_iff
    (hbody : ∀ x rest s, Inv (x :: rest) s → ∃ rest' s',
      visit (.node x) s = some s' ∧
        ((mem s').nodes x).next = contentPtr rest'.head? ∧
        Inv rest' s' ∧ rest'.length ≤ rest.length)
    (hfirst : (mem start).first h = contentPtr xs.head?)
    (hstart : Inv xs start) :
    ∃ finish, Inv [] finish ∧
      ∀ s, HlistForEach mem visit h start s ↔ s = finish := by
  simp only [HlistForEach, hfirst]
  apply hlistLoop_ends_iff _ hstart
  intro x rest s hs
  obtain ⟨rest', s', hvisit, hnext, hs'⟩ := hbody x rest s hs
  refine ⟨rest', s', ?_, hs'⟩
  simp [hlistForEachBody, hvisit, hlistNext_node, hnext]

/-- The loop that reads ahead: the body may change every pointer of its node. -/
theorem hlistForEachSafe_ends_iff
    (hbody : ∀ x rest s, Inv (x :: rest) s →
      ((mem s).nodes x).next = contentPtr rest.head? ∧
        ∃ s', visit (.node x) s = some s' ∧ Inv rest s')
    (hfirst : (mem start).first h = contentPtr xs.head?)
    (hstart : Inv xs start) :
    ∃ finish, Inv [] finish ∧
      ∀ s, HlistForEachSafe mem visit h start s ↔ s = finish := by
  simp only [HlistForEachSafe, hfirst]
  apply hlistLoop_ends_iff _ hstart
  intro x rest s hs
  obtain ⟨hnext, s', hvisit, hs'⟩ := hbody x rest s hs
  refine ⟨rest, s', ?_, hs', le_refl _⟩
  simp [hlistForEachSafeBody, hvisit, hlistNext_node, hnext]

end Rules

/-! ## What a client can observe -/

/-- A body that writes down the nodes it is called at. -/
def hlistCollect (pos : ListPtr ν)
    (state : HlistMemory κ ν × List (ListPtr ν)) :
    Option (HlistMemory κ ν × List (ListPtr ν)) :=
  some (state.1, state.2 ++ [pos])

variable [DecidableEq κ] [DecidableEq ν]

/-- Whether the list is empty, and its nodes in order. -/
structure HlistObserved (memory : HlistMemory κ ν) (h : κ) (xs : List ν) :
    Prop where
  empty : hlistEmpty memory h = decide (xs = [])
  forward : ∀ finish, HlistForEach Prod.fst hlistCollect h (memory, []) finish ↔
    finish = (memory, xs.map .node)

variable {memory memory' : HlistMemory κ ν} {s t : HlistWorld κ ν}
  {call : HlistCall κ ν} {calls : List (HlistCall κ ν)} {u v x : ν} {h : κ}
  {front rest xs : List ν}

omit [DecidableEq κ] in
theorem RepresentsHlists.observed (hrep : RepresentsHlists memory s)
    (hxs : s.entries h = some xs) : HlistObserved memory h xs := by
  have hfirst := first_of_entries hrep.chains hxs
  constructor
  · rw [hlistEmpty, hfirst]
    cases xs <;> simp [contentPtr]
  · intro finish
    let Inv : List ν → HlistMemory κ ν × List (ListPtr ν) → Prop :=
      fun rest s => ∃ front, xs = front ++ rest ∧
        s = (memory, front.map .node)
    have hbody : ∀ x rest s, Inv (x :: rest) s → ∃ rest' s',
        hlistCollect (.node x) s = some s' ∧
          ((Prod.fst s').nodes x).next = contentPtr rest'.head? ∧
          Inv rest' s' ∧ rest'.length ≤ rest.length := by
      rintro x rest s ⟨front, hsplit, rfl⟩
      exact ⟨rest, _, rfl, hlistNext_of_entries hrep.chains (hsplit ▸ hxs),
        ⟨front ++ [x], by simp [hsplit], by simp⟩, le_refl _⟩
    have hstart : Inv xs (memory, []) := ⟨[], rfl, rfl⟩
    obtain ⟨last, ⟨front, hsplit, rfl⟩, hends⟩ :=
      hlistForEach_ends_iff hbody hfirst hstart
    rw [hends finish, hsplit, List.append_nil]

/-- `hlist_unhashed` tells the nodes that were initialised or deleted by
`hlist_del_init` from those in a list and those `hlist_del` has poisoned. -/
theorem RepresentsHlists.hlistUnhashed_eq (hrep : RepresentsHlists memory s) :
    (∀ u ∈ s.unhashed, hlistUnhashed memory (.node u) = some true) ∧
      (∀ u ∈ s.deleted, hlistUnhashed memory (.node u) = some false) ∧
      ∀ u, ¬Free s.entries u →
        hlistUnhashed memory (.node u) = some false := by
  refine ⟨?_, ?_, ?_⟩
  · intro u hu
    simp [hlistUnhashed, hlistPprev_node, hrep.unhashed u hu]
  · intro u hu
    simp [hlistUnhashed, hlistPprev_node, hrep.deleted u hu]
  · intro u hu
    obtain ⟨h, front, rest, hxs⟩ := exists_entry hu
    simp [hlistUnhashed, hlistPprev_node, slotPtr_ne_null,
      hlistPprev_of_entries hrep.chains hxs]

/-! ## A sample session -/

/-- A list of two nodes, and a node that was deleted from between them. -/
def sampleHlistCalls : List (HlistCall ℕ ℕ) :=
  [.initHead 0, .addHead 5 0, .addAfter 5 6, .addBefore 7 6, .del 7]

def blankHlistMemory : HlistMemory ℕ ℕ where
  first := fun _ => .null
  nodes := fun _ => ⟨.null, .null⟩

/-- The list of the head 0 only. -/
def oneList (xs : List ℕ) : ℕ → Option (List ℕ) := fun h =>
  if h = 0 then some xs else none

theorem update_oneList {xs ys : List ℕ} :
    Function.update (oneList xs) 0 (some ys) = oneList ys := by
  funext h
  by_cases hh : h = 0 <;> simp [oneList, hh]

theorem free_oneList {u : ℕ} {xs : List ℕ} (hu : u ∉ xs) :
    Free (oneList xs) u := by
  intro h ys hys
  rw [oneList] at hys
  split at hys
  next =>
    obtain rfl := Option.some.inj hys
    exact hu
  next => cases hys

theorem run_sampleHlistCalls : ∃ s : HlistWorld ℕ ℕ,
    Run hlistStep HlistWorld.empty sampleHlistCalls s ∧
      s.entries = oneList [5, 6] ∧ s.deleted = {7} := by
  obtain ⟨s₁, h₁⟩ := hlistStep_of_permitted
    (show (HlistCall.initHead 0).Permitted (@HlistWorld.empty ℕ ℕ) from trivial)
  have e₁ : s₁.entries = oneList [] := by
    rw [h₁.1]
    funext h
    simp [HlistWorld.empty, oneList, Function.update_apply]
  obtain ⟨s₂, h₂⟩ := exists_inserted
    (show Free s₁.entries 5 from e₁ ▸ free_oneList (by decide))
    (show s₁.entries 0 = some ([] ++ []) by rw [e₁]; rfl)
  have e₂ : s₂.entries = oneList [5] := by
    rw [h₂.after, e₁, update_oneList]
    rfl
  obtain ⟨s₃, h₃⟩ := exists_inserted
    (show Free s₂.entries 6 from e₂ ▸ free_oneList (by decide))
    (show s₂.entries 0 = some (([] ++ [5]) ++ []) by rw [e₂]; rfl)
  have e₃ : s₃.entries = oneList [5, 6] := by
    rw [h₃.after, e₂, update_oneList]
    rfl
  obtain ⟨s₄, h₄⟩ := exists_inserted
    (show Free s₃.entries 7 from e₃ ▸ free_oneList (by decide))
    (show s₃.entries 0 = some ([5] ++ [6]) by rw [e₃]; rfl)
  have e₄ : s₄.entries = oneList [5, 7, 6] := by
    rw [h₄.after, e₃, update_oneList]
    rfl
  obtain ⟨s₅, h₅, hu₅, hd₅⟩ := exists_deleted
    (show s₄.entries 0 = some ([5] ++ 7 :: [6]) by rw [e₄]; rfl)
  refine ⟨s₅, ?_, ?_, ?_⟩
  · exact .cons h₁ (.cons ⟨[], h₂⟩ (.cons ⟨0, [], [], h₃⟩
      (.cons ⟨0, [5], [], h₄⟩ (.cons ⟨0, [5], [6], h₅, hu₅, hd₅⟩ (.nil s₅)))))
  · rw [h₅.after, e₄, update_oneList]
    rfl
  · rw [hd₅, h₄.deleted, h₃.deleted, h₂.deleted, h₁.2.2]
    simp [HlistWorld.empty]

/-- From memory with any contents, a sequence of permitted calls runs without a
fault, and then every list is what the calls have made of it, and every node
knows whether it is in a list. -/
theorem hlist_calls_refine (memory : HlistMemory κ ν)
    (hrun : Run hlistStep HlistWorld.empty calls s) :
    ∃ memory', hlistCalls memory calls = some memory' ∧
      (∀ h xs, s.entries h = some xs → HlistObserved memory' h xs) ∧
      (∀ u ∈ s.unhashed, hlistUnhashed memory' (.node u) = some true) ∧
      (∀ u ∈ s.deleted, hlistUnhashed memory' (.node u) = some false) ∧
      ∀ u, ¬Free s.entries u →
        hlistUnhashed memory' (.node u) = some false := by
  have hempty : RepresentsHlists memory HlistWorld.empty :=
    representsHlists_empty
  obtain ⟨memory', hcalls, hrep⟩ := hempty.run hrun
  exact ⟨memory', hcalls, fun h xs hxs => hrep.observed hxs,
    hrep.hlistUnhashed_eq⟩

theorem hlist_calls_refine_sample :
    ∃ memory', hlistCalls blankHlistMemory sampleHlistCalls = some memory' ∧
      HlistObserved memory' 0 [5, 6] ∧
      hlistUnhashed memory' (.node 7) = some false := by
  obtain ⟨s, hrun, hentries, hdeleted⟩ := run_sampleHlistCalls
  obtain ⟨memory', hcalls, hobserved, -, hpoisoned, -⟩ :=
    hlist_calls_refine blankHlistMemory hrun
  exact ⟨memory', hcalls, hobserved 0 [5, 6] (by rw [hentries]; rfl),
    hpoisoned 7 (by simp [hdeleted])⟩

/-! ## Deleted nodes -/

/-- The call uses a node that `hlist_del` has taken out of its list. -/
def HlistCall.UsesDeleted (s : HlistWorld κ ν) : HlistCall κ ν → Prop
  | .addBefore n next => n ≠ next ∧ next ∈ s.deleted
  | .addAfter n next => n ≠ next ∧ n ∈ s.deleted
  | .del n => n ∈ s.deleted
  | .delInit n => n ∈ s.deleted
  | _ => False

theorem RepresentsHlists.deleted_faults (hrep : RepresentsHlists memory s)
    (hcall : call.UsesDeleted s) : hlistCall memory call = none := by
  have hpoison := hrep.deleted
  have hdelNode : ∀ u ∈ s.deleted, hlistDelNode memory (.node u) = none := by
    intro u hu
    rw [hlistDelNode, hlistNext_node, hlistPprev_node, hpoison u hu]
    rfl
  cases call with
  | initHead h => exact hcall.elim
  | initNode u => exact hcall.elim
  | addHead u h => exact hcall.elim
  | addBefore u x =>
      obtain ⟨hux, hx⟩ := hcall
      simp [hlistCall, hlistAddBefore, hlistPprev_node, hpoison x hx,
        hlistSetPprev_node, hlistSetNext_node, hux, hlistStore]
  | addAfter x u =>
      obtain ⟨hxu, hx⟩ := hcall
      simp [hlistCall, hlistAddAfter, hlistNext_node, hpoison x hx,
        hlistSetNext_node, hxu.symm, hlistSetPprev]
  | del u =>
      rw [hlistCall, hlistDel, hdelNode u hcall]
      rfl
  | delInit u =>
      simp [hlistCall, hlistDelInit, hlistPprev_node, hpoison u hcall,
        hdelNode u hcall]

/-- After any sequence of permitted calls, every call that uses a node as one
that is in a list faults if `hlist_del` has taken the node out, although
`hlist_unhashed` takes it to be in a list. -/
theorem deleted_nodes_fault (memory : HlistMemory κ ν)
    (hrun : Run hlistStep HlistWorld.empty calls s) :
    ∃ memory', hlistCalls memory calls = some memory' ∧
      (∀ call : HlistCall κ ν, call.UsesDeleted s →
        hlistCalls memory (calls ++ [call]) = none) ∧
      ∀ u ∈ s.deleted, hlistUnhashed memory' (.node u) = some false := by
  have hempty : RepresentsHlists memory HlistWorld.empty :=
    representsHlists_empty
  obtain ⟨memory', hcalls, hrep⟩ := hempty.run hrun
  refine ⟨memory', hcalls, fun call hcall => ?_, hrep.hlistUnhashed_eq.2.1⟩
  rw [hlistCalls, List.foldlM_append, ← hlistCalls, hcalls]
  simp [hrep.deleted_faults hcall]

theorem deleted_nodes_fault_sample :
    hlistCalls blankHlistMemory (sampleHlistCalls ++ [.del 7]) = none ∧
      hlistCalls blankHlistMemory (sampleHlistCalls ++ [.addAfter 7 8]) =
        none := by
  obtain ⟨s, hrun, -, hdeleted⟩ := run_sampleHlistCalls
  obtain ⟨-, -, hfaults, -⟩ := deleted_nodes_fault blankHlistMemory hrun
  exact ⟨hfaults (.del 7) (by simp [HlistCall.UsesDeleted, hdeleted]),
    hfaults (.addAfter 7 8) (by simp [HlistCall.UsesDeleted, hdeleted])⟩

end NickDB

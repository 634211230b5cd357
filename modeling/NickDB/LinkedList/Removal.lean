import NickDB.LinkedList.Sessions

/-!
# Taking entries out of a list in a loop

A loop whose body takes the entries with a property out of the list, by
`list_del`, `list_del_init`, `list_move` or `list_move_tail`.  The loops that
read ahead, forwards or backwards and from the head or from an entry on, make
exactly these calls, in order.  The plain loops read the pointer of the entry
after the body, and get on only while nothing is taken out.
-/

namespace NickDB

open Rings ListFamily Runs Loops

/-- A way to take an entry out of its list. -/
inductive Disposal (α : Type)
  | del
  | delInit
  | move (head : α)
  | moveTail (head : α)
  deriving DecidableEq, Repr

/-- The call that takes the entry out. -/
def Disposal.call {α : Type} (disposal : Disposal α) (entry : α) : ListCall α :=
  match disposal with
  | .del => .del entry
  | .delInit => .delInit entry
  | .move head => .move entry head
  | .moveTail head => .moveTail entry head

variable {α : Type} [DecidableEq α]

/-- The body of the loop: `if (p(entry)) ...`.  It reads the entry, and faults
where there is none. -/
def disposing (p : α → Bool) (disposal : Disposal α) :
    ListPtr α → ListMemory α → Option (ListMemory α)
  | .node entry, memory =>
      if p entry then listCall memory (disposal.call entry) else some memory
  | _, _ => none

/-- The entries do not move within the list of `h`. -/
def Disposal.Suits (world : ListWorld α) (h : α) : Disposal α → Prop
  | .del => True
  | .delInit => True
  | .move head => head ≠ h ∧ world.Heads head
  | .moveTail head => head ≠ h ∧ world.Heads head

/-- Where the entries are that were taken out one after the other, between the
two worlds. -/
def Disposal.Delivers (world world' : ListWorld α) (taken : List α) :
    Disposal α → Prop
  | .del => ∀ x ∈ taken, x ∈ world'.deleted
  | .delInit => ∀ x ∈ taken, world'.entries x = some []
  | .move head =>
      world'.entries head = some (taken.reverse ++ entriesOf world.entries head)
  | .moveTail head =>
      world'.entries head = some (entriesOf world.entries head ++ taken)

variable {start memory : ListMemory α} {world world₁ world₂ : ListWorld α}
  {disposal : Disposal α} {p : α → Bool} {h k x : α} {xs taken rest : List α}

omit [DecidableEq α] in
theorem Disposal.delivers_nil (hsuits : disposal.Suits world h) :
    disposal.Delivers world world [] := by
  cases disposal with
  | del => exact fun x hx => absurd hx List.not_mem_nil
  | delInit => exact fun x hx => absurd hx List.not_mem_nil
  | move k =>
      obtain ⟨-, zs, hzs⟩ := hsuits
      exact hzs.trans (congrArg some (entriesOf_eq hzs).symm)
  | moveTail k =>
      obtain ⟨-, zs, hzs⟩ := hsuits
      rw [Delivers, List.append_nil, entriesOf_eq hzs, hzs]

/-- An entry of the list of `h` is not in the list of another head. -/
theorem detach_other (hxs : world.entries h = some xs) (hx : x ∈ xs)
    (hkh : k ≠ h) {zs : List α} (hzs : world.entries k = some zs) :
    detach world.entries x k = some zs := by
  apply detach_of_notMem hzs
  intro hmem
  exact hkh (world.separated.separate hzs hxs hmem (List.mem_cons_of_mem h hx))

/-- Taking out an entry leaves the others of its list, and delivers the
entry. -/
theorem Disposal.step_of_suits (hsuits : disposal.Suits world₁ h)
    (hdelivers : disposal.Delivers world world₁ taken)
    (hxs : world₁.entries h = some xs) (hx : x ∈ xs) :
    ∃ world₂, listsStep world₁ (disposal.call x) world₂ ∧
      world₂.entries h = some (xs.erase x) ∧ disposal.Suits world₂ h ∧
      disposal.Delivers world world₂ (taken ++ [x]) := by
  have hlinked : world₁.Linked x := Or.inr ⟨h, xs, hxs, hx⟩
  have hnotMem := (List.nodup_cons.mp (world₁.separated.nodup hxs)).1
  have hhx : h ≠ x := (ne_of_mem_of_not_mem hx hnotMem).symm
  have hdetach : detach world₁.entries x h = some (xs.erase x) :=
    detach_eq_some_iff.mpr ⟨hhx, xs, hxs, rfl⟩
  -- a head is no entry, so the entry is not the head it moves to
  have hhead : ∀ {k}, world₁.Heads k → k ≠ h → x ≠ k := by
    intro k ⟨ys, hys⟩ hkh hxk
    exact hkh (world₁.separated.separate hys hxs (hxk ▸ List.mem_cons_self)
      (List.mem_cons_of_mem h hx))
  cases disposal with
  | del =>
      obtain ⟨world₂, hstep⟩ := listsStep_of_permitted
        (show (ListCall.del x).Permitted world₁ from hlinked)
      refine ⟨world₂, hstep, hstep.2.1 ▸ hdetach, trivial, ?_⟩
      intro y hy
      rw [hstep.2.2]
      rcases List.mem_append.mp hy with hy | hy
      · exact Set.mem_insert_of_mem x (hdelivers y hy)
      · rw [List.mem_singleton.mp hy]
        exact Set.mem_insert x _
  | delInit =>
      obtain ⟨world₂, hstep⟩ := listsStep_of_permitted
        (show (ListCall.delInit x).Permitted world₁ from hlinked)
      refine ⟨world₂, hstep, ?_, trivial, ?_⟩
      · rw [hstep.2.1, ListCall.entriesAfter, assign_of_ne hhx, hdetach]
      · intro y hy
        rw [hstep.2.1, ListCall.entriesAfter]
        by_cases hyx : y = x
        · rw [hyx, assign_self]
        · have hy' : y ∈ taken := by simpa [hyx] using hy
          have hyh : y ≠ h := by
            rintro rfl
            rw [Option.some.inj (hxs.symm.trans (hdelivers y hy'))] at hx
            exact List.not_mem_nil hx
          rw [assign_of_ne hyx, detach_other hxs hx hyh (hdelivers y hy')]
  | move k =>
      obtain ⟨hkh, hk⟩ := hsuits
      obtain ⟨world₂, hstep⟩ := listsStep_of_permitted
        (show (ListCall.move x k).Permitted world₁ from
          ⟨hlinked, hhead hk hkh, hk⟩)
      have hentries : world₂.entries k = some ((taken ++ [x]).reverse ++
          entriesOf world.entries k) := by
        rw [hstep.2.1, ListCall.entriesAfter, pushEntry, assign_self,
          entriesOf_eq (detach_other hxs hx hkh hdelivers), List.reverse_append]
        rfl
      refine ⟨world₂, hstep, ?_, ⟨hkh, _, hentries⟩, hentries⟩
      rw [hstep.2.1, ListCall.entriesAfter, pushEntry, assign_of_ne hkh.symm,
        hdetach]
  | moveTail k =>
      obtain ⟨hkh, hk⟩ := hsuits
      obtain ⟨world₂, hstep⟩ := listsStep_of_permitted
        (show (ListCall.moveTail x k).Permitted world₁ from
          ⟨hlinked, hhead hk hkh, hk⟩)
      have hentries : world₂.entries k =
          some (entriesOf world.entries k ++ (taken ++ [x])) := by
        rw [hstep.2.1, ListCall.entriesAfter, appendEntry, assign_self,
          entriesOf_eq (detach_other hxs hx hkh hdelivers), List.append_assoc]
      refine ⟨world₂, hstep, ?_, ⟨hkh, _, hentries⟩, hentries⟩
      rw [hstep.2.1, ListCall.entriesAfter, appendEntry, assign_of_ne hkh.symm,
        hdetach]

/-! ## The loops that read ahead -/

/-- The loop that leaves out the entries `before` has `rest` to come: of the
entries between them those without the property are still in the list, and the
others were taken out one after the other. -/
def Removing (direction : Direction) (start : ListMemory α)
    (world : ListWorld α) (h : α) (before behind : List α) (p : α → Bool)
    (disposal : Disposal α) (rest : List α) (memory : ListMemory α) : Prop :=
  ∃ front world₁, behind = front ++ rest ∧ RepresentsLists memory world₁ ∧
    listCalls start ((front.filter p).map disposal.call) = some memory ∧
    Run listsStep world ((front.filter p).map disposal.call) world₁ ∧
    world₁.entries h = some (direction.order
      (before ++ front.filter (fun x => !p x) ++ rest)) ∧
    disposal.Suits world₁ h ∧
    disposal.Delivers world world₁ (front.filter p)

variable {direction : Direction} {before behind : List α}

theorem removing_start (hrep : RepresentsLists memory world)
    (hxs : world.entries h = some (direction.order (before ++ behind)))
    (hsuits : disposal.Suits world h) :
    Removing direction memory world h before behind p disposal behind memory :=
  ⟨[], world, rfl, hrep, rfl, .nil world, by simpa using hxs, hsuits,
    Disposal.delivers_nil hsuits⟩

omit [DecidableEq α] in
/-- A loop goes through a list of the world in its order. -/
theorem RepresentsLists.leadsThrough (hrep : RepresentsLists memory world)
    (hxs : world.entries h = some (direction.order xs)) :
    LeadsThrough direction.follow memory h xs := by
  simpa using direction.leadsThrough (hrep.rings h _ hxs)

/-- What the loop reads ahead before the body at the first entry to come. -/
theorem Removing.readsAhead (hloop : Removing direction start world h before
    behind p disposal rest memory) :
    ∃ n, ReadsAhead direction.follow memory h rest n := by
  obtain ⟨front, world₁, -, hrep, -, -, hentries, -⟩ := hloop
  have hleads := hrep.leadsThrough hentries
  cases rest with
  | nil => exact ⟨_, hleads.1, fun hne => absurd rfl hne⟩
  | cons y rest => exact ⟨_, hleads.2 _ y rest rfl, fun _ => rfl⟩

/-- The body at the first of the entries to come. -/
theorem Removing.body (hloop : Removing direction start world h before behind
    p disposal (x :: rest) memory) :
    x ≠ h ∧ ∃ memory', disposing p disposal (.node x) memory = some memory' ∧
      Removing direction start world h before behind p disposal rest
        memory' := by
  obtain ⟨front, world₁, hbehind, hrep, hcalls, hrun, hentries, hsuits,
    hdelivers⟩ := hloop
  obtain ⟨hhead, hnodup⟩ :=
    List.nodup_cons.mp (world₁.separated.nodup hentries)
  have hx : x ∈ direction.order
      (before ++ front.filter (fun x => !p x) ++ x :: rest) := by simp
  refine ⟨ne_of_mem_of_not_mem hx hhead, ?_⟩
  by_cases hp : p x
  · obtain ⟨world₂, hstep, hentries₂, hsuits₂, hdelivers₂⟩ :=
      Disposal.step_of_suits hsuits hdelivers hentries hx
    obtain ⟨memory', hcall, hrep₂⟩ := hrep.step hstep
    have hnodup' := direction.nodup_order.mp hnodup
    have hnotMem : x ∉ before ++ front.filter (fun x => !p x) := by
      intro hmem
      exact (List.nodup_append.mp hnodup').2.2 x hmem x List.mem_cons_self rfl
    rw [direction.erase_order hnodup', List.erase_append_right _ hnotMem,
      List.erase_cons_head] at hentries₂
    refine ⟨memory', by simp [disposing, hp, hcall], front ++ [x], world₂,
      by simp [hbehind], hrep₂, ?_, ?_, by simpa [hp] using hentries₂, hsuits₂,
      by simpa [hp] using hdelivers₂⟩
    · rw [List.filter_append, List.map_append, listCalls_append hcalls]
      simpa [hp, listCalls_singleton] using hcall
    · rw [List.filter_append, List.map_append]
      apply run_append_iff.mpr
      exact ⟨world₁, hrun, by simpa [hp] using Run.cons hstep (Run.nil world₂)⟩
  · refine ⟨memory, by simp [disposing, hp], front ++ [x], world₁,
      by simp [hbehind], hrep, by simpa [hp] using hcalls,
      by simpa [hp] using hrun, by simpa [hp] using hentries, hsuits,
      by simpa [hp] using hdelivers⟩

/-- After any sequence of permitted calls, a loop that reads ahead, in either
direction and from the head or behind any entry, with a body that takes some
entries out of the list makes exactly the calls for those of them it meets, in
its order: the other entries are left in the list, and those taken out are where
the calls put them. -/
theorem list_for_each_safe_removes {calls : List (ListCall α)}
    (memory : ListMemory α) (hrun : Run listsStep ListWorld.empty calls world)
    (direction : Direction)
    (hxs : world.entries h = some (direction.order (before ++ behind)))
    (hsuits : disposal.Suits world h) (p : α → Bool) :
    ∃ memory₁ memory₂ world₂, listCalls memory calls = some memory₁ ∧
      (∀ finish, ForEachSafeFrom direction.follow id (disposing p disposal) h
        (.node (before.getLastD h)) memory₁ finish ↔ finish = memory₂) ∧
      listCalls memory₁ ((behind.filter p).map disposal.call) = some memory₂ ∧
      Run listsStep world ((behind.filter p).map disposal.call) world₂ ∧
      disposal.Delivers world world₂ (behind.filter p) ∧
      Observed memory₂ h
        (direction.order (before ++ behind.filter (fun x => !p x))) ∧
      (∀ k ys, world₂.entries k = some ys → Observed memory₂ k ys) ∧
      ∀ x ∈ world₂.deleted, memory₂ x = ⟨.poison1, .poison2⟩ := by
  have hempty : RepresentsLists memory ListWorld.empty := representsLists_empty
  obtain ⟨memory₁, hcalls, hrep⟩ := hempty.run hrun
  have hstart : Removing direction memory₁ world h before behind p disposal
      behind memory₁ := removing_start hrep hxs hsuits
  obtain ⟨n, hn⟩ := hstart.readsAhead
  have hentry := (hrep.leadsThrough hxs).follow_getLastD
  have hbody : ∀ x rest s,
      Removing direction memory₁ world h before behind p disposal (x :: rest)
        s → x ≠ h ∧
        ∃ s' n, disposing p disposal (.node x) s = some s' ∧
        Removing direction memory₁ world h before behind p disposal rest s' ∧
        ReadsAhead direction.follow (id s') h rest n := by
    intro x rest s hs
    obtain ⟨hxh, s', hvisit, hs'⟩ := hs.body
    obtain ⟨n, hn⟩ := hs'.readsAhead
    exact ⟨hxh, s', n, hvisit, hs', hn⟩
  obtain ⟨memory₂, hfinish, hends⟩ :=
    forEachSafe_ends_iff hbody hentry hn hstart
  obtain ⟨front, world₂, hfront, hrep₂, hcalls₂, hrun₂, hentries, -,
    hdelivers⟩ := hfinish
  rw [List.append_nil] at hfront hentries
  subst hfront
  exact ⟨memory₁, memory₂, world₂, hcalls, hends, hcalls₂, hrun₂, hdelivers,
    hrep₂.observed hentries, fun k ys hys => hrep₂.observed hys,
    hrep₂.poisoned⟩

/-- A loop that moves the entries of the second sample list to the first, from
the last one on. -/
theorem list_for_each_safe_removes_sample :
    ∃ memory₁ memory₂, listCalls blankMemory sampleCalls = some memory₁ ∧
      ListForEachSafeReverse id (disposing (fun _ => true) (.move 0)) 1 memory₁
        memory₂ ∧
      Observed memory₂ 1 [] ∧ Observed memory₂ 0 [2] := by
  obtain ⟨world, hrun, hentries, -⟩ := run_sampleCalls
  have hfirst : world.entries 0 = some [] := by
    rw [hentries]
    rfl
  have hsecond :
      world.entries 1 = some (Direction.backward.order ([] ++ [2])) := by
    rw [hentries]
    rfl
  have hsuits : (Disposal.move 0).Suits world 1 := ⟨by decide, [], hfirst⟩
  obtain ⟨memory₁, memory₂, world₂, hcalls, hloop, -, -, hdelivers, hkept,
    hothers, -⟩ :=
    list_for_each_safe_removes blankMemory hrun .backward hsecond hsuits
      fun _ => true
  have htarget : world₂.entries 0 = some [2] := by
    have htarget : world₂.entries 0 =
        some ([2] ++ entriesOf world.entries 0) := hdelivers
    rw [htarget, entriesOf_eq hfirst]
    rfl
  exact ⟨memory₁, memory₂, hcalls, (hloop memory₂).mpr rfl, hkept,
    hothers 0 [2] htarget⟩

/-! ## The plain loops -/

section Plain

variable {p : α → Bool}

/-- A loop at an entry that was deleted faults. -/
theorem not_ends_of_deleted {finish tested} :
    ¬Ends (forEachTest h)
      (forEachBody direction.follow id (disposing p disposal))
      (direction.poison, memory) tested finish := by
  let I : ListPtr α × ListMemory α → Prop := fun s => s.1 = direction.poison
  have htest : ∀ s, I s → forEachTest h s = some true := by
    rintro ⟨pos, s⟩ rfl
    cases direction with
    | forward => rfl
    | backward => rfl
  have hbody : ∀ s t, I s →
      forEachBody direction.follow id (disposing p disposal) s = some t →
        I t := by
    rintro ⟨pos, s⟩ t rfl ht
    cases direction with
    | forward => cases ht
    | backward => cases ht
  exact not_ends_of_invariant htest hbody rfl

/-- A loop at an entry that `list_del_init` has made a list of its own stays
there. -/
theorem not_ends_of_own_list {finish tested} (hp : p x = true) (hxh : x ≠ h)
    (hx : memory x = ⟨.node x, .node x⟩) :
    ¬Ends (forEachTest h)
      (forEachBody direction.follow id (disposing p .delInit))
      (.node x, memory) tested finish := by
  let I : ListPtr α × ListMemory α → Prop := fun s =>
    s.1 = .node x ∧ s.2 x = ⟨.node x, .node x⟩
  have htest : ∀ s, I s → forEachTest h s = some true := by
    rintro ⟨pos, s⟩ ⟨rfl, -⟩
    simp [forEachTest, hxh]
  have hbody : ∀ s t, I s →
      forEachBody direction.follow id (disposing p .delInit) s = some t →
        I t := by
    rintro ⟨pos, s⟩ t ⟨rfl, hown⟩ ht
    have hown' : s x = ⟨.node x, .node x⟩ := hown
    have hentry : listDelEntry s (.node x) = some (joinMemory s x x) :=
      listDelEntry_eq (by rw [hown']) (by rw [hown'])
    have hcall : listCall s (Disposal.delInit.call x) =
        some (joinMemory (joinMemory s x x) x x) := listDelInit_eq hentry
    simp only [forEachBody, disposing, hp, hcall, if_true, id,
      Option.bind_eq_bind, Option.bind_some, Direction.follow_node] at ht
    obtain rfl := Option.some.inj ht
    cases direction with
    | forward => simp [I, joinMemory]
    | backward => simp [I, joinMemory]
  exact not_ends_of_invariant htest hbody ⟨rfl, hx⟩

/-- The plain loop does not end once it has deleted its entry. -/
theorem RepresentsLists.not_ends_of_deleting
    (hrep : RepresentsLists memory world) (hlinked : world.Linked x)
    (hxh : x ≠ h) (hp : p x = true)
    (hdisposal : disposal = .del ∨ disposal = .delInit) {finish tested} :
    ¬Ends (forEachTest h)
      (forEachBody direction.follow id (disposing p disposal))
      (.node x, memory) tested finish := by
  have htest : forEachTest h (.node x, memory) = some true := by
    simp [forEachTest, hxh]
  intro hends
  rcases hdisposal with rfl | rfl
  · obtain ⟨world', hstep⟩ := listsStep_of_permitted
      (show (ListCall.del x).Permitted world from hlinked)
    obtain ⟨memory', hcall, hrep'⟩ := hrep.step hstep
    have hpoison : memory' x = ⟨.poison1, .poison2⟩ := by
      apply hrep'.poisoned
      rw [hstep.2.2]
      exact Set.mem_insert x _
    have hbody : forEachBody direction.follow id (disposing p .del)
        (.node x, memory) = some (direction.poison, memory') := by
      cases direction with
      | forward => simp [forEachBody, disposing, hp, Disposal.call, hcall,
          Direction.follow_node, hpoison, Direction.poison]
      | backward => simp [forEachBody, disposing, hp, Disposal.call, hcall,
          Direction.follow_node, hpoison, Direction.poison]
    obtain ⟨rest, -, hrest⟩ := (ends_of_true htest hbody).mp hends
    exact not_ends_of_deleted hrest
  · obtain ⟨world', hstep⟩ := listsStep_of_permitted
      (show (ListCall.delInit x).Permitted world from hlinked)
    obtain ⟨memory', hcall, hrep'⟩ := hrep.step hstep
    have hempty : world'.entries x = some [] := by
      rw [hstep.2.1, ListCall.entriesAfter, assign_self]
    have hnext : (memory' x).next = .node x :=
      next_of_entries hrep'.rings hempty
    have hprev : (memory' x).prev = .node x :=
      prev_of_entries hrep'.rings hempty
    have hown : memory' x = ⟨.node x, .node x⟩ := by
      calc
        memory' x = ⟨(memory' x).next, (memory' x).prev⟩ := rfl
        _ = ⟨.node x, .node x⟩ := by rw [hnext, hprev]
    have hbody : forEachBody direction.follow id (disposing p .delInit)
        (.node x, memory) = some (.node x, memory') := by
      cases direction with
      | forward => simp [forEachBody, disposing, hp, Disposal.call, hcall,
          Direction.follow_node, hown]
      | backward => simp [forEachBody, disposing, hp, Disposal.call, hcall,
          Direction.follow_node, hown]
    obtain ⟨rest, -, hrest⟩ := (ends_of_true htest hbody).mp hends
    exact not_ends_of_own_list hp hxh hown hrest

/-- After any sequence of permitted calls, a plain loop, in either direction and
from the head or behind any entry, with a body that deletes some entries ends
exactly if it meets none of them: after `list_del` it follows a poison value,
and after `list_del_init` it does not leave the entry. -/
theorem list_for_each_removes_iff {calls : List (ListCall α)}
    (memory : ListMemory α) (hrun : Run listsStep ListWorld.empty calls world)
    (direction : Direction)
    (hxs : world.entries h = some (direction.order (before ++ behind)))
    (hdisposal : disposal = .del ∨ disposal = .delInit) (p : α → Bool) :
    ∃ memory₁, listCalls memory calls = some memory₁ ∧
      ((∃ finish, ForEachFrom direction.follow id (disposing p disposal) h
        (.node (before.getLastD h)) memory₁ finish) ↔
        ∀ x ∈ behind, p x = false) := by
  have hempty : RepresentsLists memory ListWorld.empty := representsLists_empty
  obtain ⟨memory₁, hcalls, hrep⟩ := hempty.run hrun
  have hhead := (List.nodup_cons.mp (world.separated.nodup hxs)).1
  have hne : ∀ {x}, x ∈ behind → x ≠ h := by
    intro x hx
    exact ne_of_mem_of_not_mem
      (direction.mem_order.mpr (List.mem_append_right before hx)) hhead
  have hleads := hrep.leadsThrough hxs
  have hnext : ∀ front x rest, behind = front ++ x :: rest →
      direction.follow memory₁ (.node x) = some (.node (rest.headD h)) := by
    rintro front x rest rfl
    exact hleads.2 (before ++ front) x rest (by simp)
  have htest : ∀ {x}, x ∈ behind →
      forEachTest h (.node x, memory₁) = some true := by
    intro x hx
    simp [forEachTest, hne hx]
  refine ⟨memory₁, hcalls, ?_, ?_⟩
  · rintro ⟨finish, pos, tested, hpos, hends⟩
    obtain rfl := Option.some.inj (hleads.follow_getLastD.symm.trans hpos)
    -- the loop at its test, with `rest` to come and nothing deleted yet
    suffices hloop : ∀ rest front tested, behind = front ++ rest →
        Ends (forEachTest h)
          (forEachBody direction.follow id (disposing p disposal))
          (.node (rest.headD h), memory₁) tested (.node h, finish) →
        ∀ x ∈ rest, p x = false from hloop behind [] tested rfl hends
    intro rest
    induction rest with
    | nil => exact fun _ _ _ _ x hx => absurd hx List.not_mem_nil
    | cons x rest ih =>
        intro front tested hsplit hends
        have hx : x ∈ behind := by simp [hsplit]
        by_cases hp : p x = true
        · have hlinked : world.Linked x := Or.inr ⟨h, _, hxs,
            direction.mem_order.mpr (List.mem_append_right before hx)⟩
          exact absurd hends
            (hrep.not_ends_of_deleting hlinked (hne hx) hp hdisposal)
        · have hbody : forEachBody direction.follow id (disposing p disposal)
              (.node x, memory₁) = some (.node (rest.headD h), memory₁) := by
            simp [forEachBody, disposing, hp, hnext front x rest hsplit]
          obtain ⟨tested', -, hrest⟩ :=
            (ends_of_true (htest hx) hbody).mp hends
          intro y hy
          rcases List.mem_cons.mp hy with rfl | hy
          · exact Bool.eq_false_of_not_eq_true hp
          · exact ih (front ++ [x]) tested' (by simp [hsplit]) hrest y hy
  · intro hnone
    let Inv : List α → ListMemory α → Prop := fun rest s =>
      ∃ front, behind = front ++ rest ∧ s = memory₁
    have hbody : ∀ x rest s, Inv (x :: rest) s → x ≠ h ∧ ∃ s',
        disposing p disposal (.node x) s = some s' ∧ Inv rest s' ∧
          direction.follow (id s') (.node x) =
            some (.node (rest.headD h)) := by
      rintro x rest s ⟨front, hsplit, rfl⟩
      have hx : x ∈ behind := by simp [hsplit]
      refine ⟨hne hx, s, ?_, ⟨front ++ [x], by simp [hsplit], rfl⟩,
        hnext front x rest hsplit⟩
      simp [disposing, hnone x hx]
    have hstart : Inv behind memory₁ := ⟨[], rfl, rfl⟩
    obtain ⟨finish, -, hends⟩ :=
      forEach_ends_iff hbody hleads.follow_getLastD hstart
    exact ⟨finish, (hends finish).mpr rfl⟩

theorem list_for_each_removes_iff_sample :
    ∃ memory₁, listCalls blankMemory sampleCalls = some memory₁ ∧
      ((∃ finish, ListForEachReverse id (disposing (fun _ => true) .del) 1
        memory₁ finish) ↔ ∀ x ∈ [2], (fun _ : ℕ => true) x = false) := by
  obtain ⟨world, hrun, hentries, -⟩ := run_sampleCalls
  have hsecond :
      world.entries 1 = some (Direction.backward.order ([] ++ [2])) := by
    rw [hentries]
    rfl
  exact list_for_each_removes_iff blankMemory hrun .backward hsecond
    (Or.inl rfl) _

end Plain

end NickDB

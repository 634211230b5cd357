import NickDB.LinkedList.HlistSessions

/-!
# Taking nodes out of an hlist in a loop

A loop whose body takes the nodes with a property out of the list, by
`hlist_del` or `hlist_del_init`.  The loop that reads ahead takes out all of
them.  The plain loop reads the pointer of the node after the body: `hlist_del`
has left a poison value there and `hlist_del_init` null, so the loop faults, or
ends at the first node it takes out.
-/

namespace NickDB

open SlotChains Runs Loops

variable {κ ν : Type}

/-- `hlist_del_init`, or `hlist_del`. -/
def removalCall (init : Bool) (n : ν) : HlistCall κ ν :=
  if init then .delInit n else .del n

/-- The nodes known to be in no list after such a call. -/
def HlistWorld.removed (s : HlistWorld κ ν) (init : Bool) : Set ν :=
  if init then s.unhashed else s.deleted

variable [DecidableEq κ] [DecidableEq ν]

/-- The body of the loop: `if (p(node)) ...`.  It reads the node, and faults
where there is none. -/
def hlistDisposing (p : ν → Bool) (init : Bool) :
    ListPtr ν → HlistMemory κ ν → Option (HlistMemory κ ν)
  | .node n, memory =>
      if p n then hlistCall memory (removalCall init n) else some memory
  | _, _ => none

variable {memory start : HlistMemory κ ν} {s t : HlistWorld κ ν}
  {calls : List (HlistCall κ ν)} {u x : ν} {h k : κ}
  {front rest xs : List ν} {p : ν → Bool} {init : Bool}

/-- Taking a node out of its list. -/
theorem RepresentsHlists.takeOut (hrep : RepresentsHlists memory s)
    (hxs : s.entries h = some (front ++ x :: rest)) (init : Bool) :
    ∃ memory' t, hlistCall memory (removalCall init x) = some memory' ∧
      RepresentsHlists memory' t ∧
      t.entries = Function.update s.entries h (some (front ++ rest)) ∧
      t.removed init = insert x (s.removed init) := by
  cases init with
  | false =>
      obtain ⟨t, hremoved, hunhashed, hdeleted⟩ := exists_deleted hxs
      obtain ⟨memory', hcall, hrep'⟩ := hrep.del hremoved hunhashed hdeleted
      exact ⟨memory', t, hcall, hrep', hremoved.after, hdeleted⟩
  | true =>
      obtain ⟨t, hremoved, hunhashed, hdeleted⟩ := exists_unhashed hxs
      obtain ⟨memory', hcall, hrep'⟩ := hrep.delInit hremoved hunhashed hdeleted
      exact ⟨memory', t, hcall, hrep', hremoved.after, hunhashed⟩

/-! ## The loop that reads ahead -/

/-- The loop over the list `xs` of `h` has `rest` to come: of the nodes before
it those without the property are still in the list, and the other lists are as
before. -/
def HlistRemoving (s : HlistWorld κ ν) (h : κ) (xs : List ν) (p : ν → Bool)
    (init : Bool) (rest : List ν) (memory : HlistMemory κ ν) : Prop :=
  ∃ front t, xs = front ++ rest ∧ RepresentsHlists memory t ∧
    t.entries = Function.update s.entries h
      (some (front.filter (fun x => !p x) ++ rest)) ∧
    ∀ x ∈ front, p x = true → x ∈ t.removed init

/-- The body at the first of the nodes to come. -/
theorem HlistRemoving.body
    (hloop : HlistRemoving s h xs p init (x :: rest) memory) :
    (memory.nodes x).next = contentPtr rest.head? ∧
      ∃ memory', hlistDisposing p init (.node x) memory = some memory' ∧
        HlistRemoving s h xs p init rest memory' := by
  obtain ⟨front, t, hsplit, hrep, hentries, htaken⟩ := hloop
  have hxs : t.entries h =
      some (front.filter (fun x => !p x) ++ x :: rest) := by
    rw [hentries, Function.update_self]
  refine ⟨hlistNext_of_entries hrep.chains hxs, ?_⟩
  by_cases hp : p x
  · obtain ⟨memory', t', hcall, hrep', hentries', hremoved⟩ :=
      hrep.takeOut hxs init
    refine ⟨memory', by simp [hlistDisposing, hp, hcall], front ++ [x], t',
      by simp [hsplit], hrep', ?_, ?_⟩
    · rw [hentries', hentries, Function.update_idem]
      simp [hp]
    · intro y hy hpy
      rw [hremoved]
      rcases List.mem_append.mp hy with hy | hy
      · exact Set.mem_insert_of_mem x (htaken y hy hpy)
      · exact Or.inl (List.mem_singleton.mp hy)
  · refine ⟨memory, by simp [hlistDisposing, hp], front ++ [x], t,
      by simp [hsplit], hrep, ?_, ?_⟩
    · rw [hentries]
      simp [hp]
    · intro y hy hpy
      rcases List.mem_append.mp hy with hy | hy
      · exact htaken y hy hpy
      · exact absurd (List.mem_singleton.mp hy ▸ hpy) hp

/-- A node that was taken out. -/
theorem RepresentsHlists.hlistUnhashed_removed
    (hrep : RepresentsHlists memory t) (hx : x ∈ t.removed init) :
    hlistUnhashed memory (.node x) = some init := by
  obtain ⟨hunhashed, hdeleted, -⟩ := hrep.hlistUnhashed_eq
  cases init with
  | false => exact hdeleted x hx
  | true => exact hunhashed x hx

/-- After any sequence of permitted calls, `hlist_for_each_safe` with a body
that takes the nodes with a property out of the list ends with the others in the
list, in order, and every other list as before.  `hlist_unhashed` is true of the
nodes `hlist_del_init` has taken out and false of those `hlist_del` has. -/
theorem hlist_for_each_safe_removes (memory : HlistMemory κ ν)
    (hrun : Run hlistStep HlistWorld.empty calls s)
    (hxs : s.entries h = some xs) (p : ν → Bool) (init : Bool) :
    ∃ memory₁ memory₂, hlistCalls memory calls = some memory₁ ∧
      (∀ finish, HlistForEachSafe id (hlistDisposing p init) h memory₁ finish ↔
        finish = memory₂) ∧
      HlistObserved memory₂ h (xs.filter (fun x => !p x)) ∧
      (∀ k ys, k ≠ h → s.entries k = some ys → HlistObserved memory₂ k ys) ∧
      ∀ x ∈ xs, p x = true →
        hlistUnhashed memory₂ (.node x) = some init := by
  have hempty : RepresentsHlists memory HlistWorld.empty :=
    representsHlists_empty
  obtain ⟨memory₁, hcalls, hrep⟩ := hempty.run hrun
  have hstart : HlistRemoving s h xs p init xs memory₁ := by
    refine ⟨[], s, rfl, hrep, ?_, fun x hx => absurd hx List.not_mem_nil⟩
    rw [List.filter_nil, List.nil_append, ← hxs, Function.update_eq_self]
  have hbody : ∀ x rest m, HlistRemoving s h xs p init (x :: rest) m →
      ((id m).nodes x).next = contentPtr rest.head? ∧
        ∃ m', hlistDisposing p init (.node x) m = some m' ∧
          HlistRemoving s h xs p init rest m' :=
    fun x rest m hm => hm.body
  obtain ⟨memory₂, hfinish, hends⟩ := hlistForEachSafe_ends_iff hbody
    (first_of_entries hrep.chains hxs) hstart
  obtain ⟨front, t, hfront, hrep₂, hentries, htaken⟩ := hfinish
  rw [List.append_nil] at hfront hentries
  subst hfront
  refine ⟨memory₁, memory₂, hcalls, hends, hrep₂.observed ?_, ?_, ?_⟩
  · rw [hentries, Function.update_self]
  · intro k ys hk hys
    apply hrep₂.observed
    rw [hentries, Function.update_of_ne hk, hys]
  · exact fun x hx hp => hrep₂.hlistUnhashed_removed (htaken x hx hp)

theorem hlist_for_each_safe_removes_sample :
    ∃ memory₁ memory₂,
      hlistCalls blankHlistMemory sampleHlistCalls = some memory₁ ∧
      HlistForEachSafe id (hlistDisposing (fun x => x == 5) true) 0 memory₁
        memory₂ ∧
      HlistObserved memory₂ 0 [6] ∧
      hlistUnhashed memory₂ (.node 5) = some true := by
  obtain ⟨s, hrun, hentries, -⟩ := run_sampleHlistCalls
  obtain ⟨memory₁, memory₂, hcalls, hends, hkept, -, htaken⟩ :=
    hlist_for_each_safe_removes blankHlistMemory hrun
      (show s.entries 0 = some [5, 6] by rw [hentries]; rfl)
      (fun x => x == 5) true
  exact ⟨memory₁, memory₂, hcalls, (hends memory₂).mpr rfl, hkept,
    htaken 5 (by decide) (by decide)⟩

/-! ## The plain loop -/

/-- The loop over the list `xs` of `h` has taken out no node yet, or the first
one with the property, at which it ends. -/
def HlistRemovingFirst (s : HlistWorld κ ν) (start : HlistMemory κ ν) (h : κ)
    (xs : List ν) (p : ν → Bool) (rest : List ν) (memory : HlistMemory κ ν) :
    Prop :=
  (∃ front, xs = front ++ rest ∧ (∀ x ∈ front, p x = false) ∧
      memory = start) ∨
    rest = [] ∧ ∃ t, RepresentsHlists memory t ∧
      t.entries = Function.update s.entries h (some (xs.eraseP p))

/-- The body at the first of the nodes to come. -/
theorem HlistRemovingFirst.body (hrep : RepresentsHlists start s)
    (hxs : s.entries h = some xs)
    (hloop : HlistRemovingFirst s start h xs p (x :: rest) memory) :
    ∃ rest' memory', hlistDisposing p true (.node x) memory = some memory' ∧
      (memory'.nodes x).next = contentPtr rest'.head? ∧
      HlistRemovingFirst s start h xs p rest' memory' ∧
      rest'.length ≤ rest.length := by
  rcases hloop with ⟨front, hsplit, hfront, rfl⟩ | ⟨hrest, -⟩
  · by_cases hp : p x = true
    · obtain ⟨memory', t, hcall, hrep', hentries, hremoved⟩ :=
        hrep.takeOut (hsplit ▸ hxs) true
      have hx : x ∈ t.unhashed := by
        have hx : x ∈ t.removed true := hremoved ▸ Set.mem_insert x _
        exact hx
      have herase : xs.eraseP p = front ++ rest := by
        rw [hsplit, List.eraseP_append_right _ (by simpa using hfront),
          List.eraseP_cons_of_pos hp]
      refine ⟨[], memory', by simp [hlistDisposing, hp, hcall], ?_,
        Or.inr ⟨rfl, t, hrep', herase ▸ hentries⟩, Nat.zero_le _⟩
      rw [hrep'.unhashed x hx]
      rfl
    · refine ⟨rest, memory, by simp [hlistDisposing, hp],
        hlistNext_of_entries hrep.chains (hsplit ▸ hxs),
        Or.inl ⟨front ++ [x], by simp [hsplit], ?_, rfl⟩, le_refl _⟩
      intro y hy
      rcases List.mem_append.mp hy with hy | hy
      · exact hfront y hy
      · exact Bool.eq_false_of_not_eq_true (List.mem_singleton.mp hy ▸ hp)
  · cases hrest

/-- After any sequence of permitted calls, `hlist_for_each` with a body that
takes the nodes with a property out by `hlist_del_init` ends, and has taken out
only the first of them. -/
theorem hlist_for_each_del_init (memory : HlistMemory κ ν)
    (hrun : Run hlistStep HlistWorld.empty calls s)
    (hxs : s.entries h = some xs) (p : ν → Bool) :
    ∃ memory₁ memory₂, hlistCalls memory calls = some memory₁ ∧
      (∀ finish, HlistForEach id (hlistDisposing p true) h memory₁ finish ↔
        finish = memory₂) ∧
      HlistObserved memory₂ h (xs.eraseP p) ∧
      ∀ k ys, k ≠ h → s.entries k = some ys → HlistObserved memory₂ k ys := by
  have hempty : RepresentsHlists memory HlistWorld.empty :=
    representsHlists_empty
  obtain ⟨memory₁, hcalls, hrep⟩ := hempty.run hrun
  have hbody : ∀ x rest m, HlistRemovingFirst s memory₁ h xs p (x :: rest) m →
      ∃ rest' m', hlistDisposing p true (.node x) m = some m' ∧
        ((id m').nodes x).next = contentPtr rest'.head? ∧
        HlistRemovingFirst s memory₁ h xs p rest' m' ∧
        rest'.length ≤ rest.length :=
    fun x rest m hm => hm.body hrep hxs
  have hstart : HlistRemovingFirst s memory₁ h xs p xs memory₁ :=
    Or.inl ⟨[], rfl, fun x hx => absurd hx List.not_mem_nil, rfl⟩
  obtain ⟨memory₂, hfinish, hends⟩ :=
    hlistForEach_ends_iff hbody (first_of_entries hrep.chains hxs) hstart
  refine ⟨memory₁, memory₂, hcalls, hends, ?_⟩
  rcases hfinish with ⟨front, hfront, hnone, rfl⟩ | ⟨-, t, hrep₂, hentries⟩
  · rw [List.append_nil] at hfront
    have herase : xs.eraseP p = xs := by
      apply List.eraseP_of_forall_not
      simpa [hfront] using hnone
    rw [herase]
    exact ⟨hrep.observed hxs, fun k ys _ hys => hrep.observed hys⟩
  · refine ⟨hrep₂.observed (by rw [hentries, Function.update_self]), ?_⟩
    intro k ys hk hys
    apply hrep₂.observed
    rw [hentries, Function.update_of_ne hk, hys]

theorem hlist_for_each_del_init_sample :
    ∃ memory₁ memory₂,
      hlistCalls blankHlistMemory sampleHlistCalls = some memory₁ ∧
      HlistForEach id (hlistDisposing (fun _ => true) true) 0 memory₁
        memory₂ ∧
      HlistObserved memory₂ 0 [6] := by
  obtain ⟨s, hrun, hentries, -⟩ := run_sampleHlistCalls
  obtain ⟨memory₁, memory₂, hcalls, hends, hkept, -⟩ :=
    hlist_for_each_del_init blankHlistMemory hrun
      (show s.entries 0 = some [5, 6] by rw [hentries]; rfl) fun _ => true
  exact ⟨memory₁, memory₂, hcalls, (hends memory₂).mpr rfl, hkept⟩

/-- The plain loop faults once it has poisoned its node. -/
theorem RepresentsHlists.not_ends_of_del (hrep : RepresentsHlists memory s)
    (hxs : s.entries h = some (front ++ x :: rest)) (hp : p x = true)
    {finish tested} :
    ¬Ends (hlistTest id) (hlistForEachBody id (hlistDisposing p false))
      (.node x, memory) tested finish := by
  obtain ⟨memory', t, hcall, hrep', -, hremoved⟩ := hrep.takeOut hxs false
  have hx : x ∈ t.deleted := by
    have hx : x ∈ t.removed false := hremoved ▸ Set.mem_insert x _
    exact hx
  have htest : hlistTest id (.node x, memory) = some true := by
    simp [hlistTest, hlistNext_node]
  have hbody : hlistForEachBody id (hlistDisposing p false) (.node x, memory) =
      some (.poison1, memory') := by
    simp [hlistForEachBody, hlistDisposing, hp, hcall, hlistNext_node,
      hrep'.deleted x hx]
  intro hends
  obtain ⟨tested', -, hrest⟩ := (ends_of_true htest hbody).mp hends
  exact not_ends_of_none rfl hrest

/-- After any sequence of permitted calls, `hlist_for_each` with a body that
takes the nodes with a property out by `hlist_del` ends exactly if there is no
such node. -/
theorem hlist_for_each_del_iff (memory : HlistMemory κ ν)
    (hrun : Run hlistStep HlistWorld.empty calls s)
    (hxs : s.entries h = some xs) (p : ν → Bool) :
    ∃ memory₁, hlistCalls memory calls = some memory₁ ∧
      ((∃ finish, HlistForEach id (hlistDisposing p false) h memory₁ finish) ↔
        ∀ x ∈ xs, p x = false) := by
  have hempty : RepresentsHlists memory HlistWorld.empty :=
    representsHlists_empty
  obtain ⟨memory₁, hcalls, hrep⟩ := hempty.run hrun
  have hfirst := first_of_entries hrep.chains hxs
  refine ⟨memory₁, hcalls, ?_, ?_⟩
  · rintro ⟨finish, last, tested, hends⟩
    rw [id, hfirst] at hends
    -- the loop at its test, with `rest` to come and nothing deleted yet
    suffices hloop : ∀ rest front tested, xs = front ++ rest →
        Ends (hlistTest id) (hlistForEachBody id (hlistDisposing p false))
          (contentPtr rest.head?, memory₁) tested (last, finish) →
        ∀ x ∈ rest, p x = false from hloop xs [] tested rfl hends
    intro rest
    induction rest with
    | nil => exact fun _ _ _ _ x hx => absurd hx List.not_mem_nil
    | cons x rest ih =>
        intro front tested hsplit hends
        rw [hsplit] at hxs
        by_cases hp : p x = true
        · exact absurd hends (hrep.not_ends_of_del hxs hp)
        · have htest : hlistTest id (.node x, memory₁) = some true := by
            simp [hlistTest, hlistNext_node]
          have hbody : hlistForEachBody id (hlistDisposing p false)
              (.node x, memory₁) = some (contentPtr rest.head?, memory₁) := by
            simp [hlistForEachBody, hlistDisposing, hp, hlistNext_node,
              hlistNext_of_entries hrep.chains hxs]
          obtain ⟨tested', -, hrest⟩ := (ends_of_true htest hbody).mp hends
          have hrest' := ih (front ++ [x]) tested' (by simp [hsplit]) hrest
          intro y hy
          rcases List.mem_cons.mp hy with rfl | hy
          · exact Bool.eq_false_of_not_eq_true hp
          · exact hrest' y hy
  · intro hnone
    let Inv : List ν → HlistMemory κ ν → Prop := fun rest m =>
      ∃ front, xs = front ++ rest ∧ m = memory₁
    have hbody : ∀ x rest m, Inv (x :: rest) m → ∃ rest' m',
        hlistDisposing p false (.node x) m = some m' ∧
          ((id m').nodes x).next = contentPtr rest'.head? ∧ Inv rest' m' ∧
          rest'.length ≤ rest.length := by
      rintro x rest m ⟨front, hsplit, rfl⟩
      have hx : x ∈ xs := by simp [hsplit]
      refine ⟨rest, m, ?_, hlistNext_of_entries hrep.chains (hsplit ▸ hxs),
        ⟨front ++ [x], by simp [hsplit], rfl⟩, le_refl _⟩
      simp [hlistDisposing, hnone x hx]
    obtain ⟨finish, -, hends⟩ :=
      hlistForEach_ends_iff hbody hfirst ⟨[], rfl, rfl⟩
    exact ⟨finish, (hends finish).mpr rfl⟩

theorem hlist_for_each_del_iff_sample :
    ∃ memory₁, hlistCalls blankHlistMemory sampleHlistCalls = some memory₁ ∧
      ((∃ finish, HlistForEach id (hlistDisposing (fun x => x == 6) false) 0
        memory₁ finish) ↔ ∀ x ∈ [5, 6], (x == 6) = false) := by
  obtain ⟨s, hrun, hentries, -⟩ := run_sampleHlistCalls
  exact hlist_for_each_del_iff blankHlistMemory hrun
    (show s.entries 0 = some [5, 6] by rw [hentries]; rfl) fun x => x == 6

end NickDB

import NickDB.LinkedList.Refinement
import NickDB.Support.Loops

/-!
# Traversals of a linked list

The loops of `linkedlist.h`.  The body is the caller's: a partial function of
the entry and a state, of which the memory is a part.  `list_for_each` and
`list_for_each_entry_reverse` follow a pointer of the entry after the body;
`list_for_each_safe` has read it before.  A loop starts at the head or, to
continue, at an entry.
-/

namespace NickDB

open Rings ListFamily Runs Loops

variable {α : Type} {σ : Type}

/-- `next` and `prev` pointers, as a loop follows them. -/
abbrev Follow (α : Type) := ListMemory α → ListPtr α → Option (ListPtr α)

section Loops

variable [DecidableEq α] (follow : Follow α) (memory : σ → ListMemory α)
  (visit : ListPtr α → σ → Option σ) (head : α)

/-- `pos != head`. -/
def forEachTest (state : ListPtr α × σ) : Option Bool :=
  some (decide (state.1 ≠ .node head))

/-- The body, then `pos = pos->next`. -/
def forEachBody (state : ListPtr α × σ) : Option (ListPtr α × σ) := do
  let after ← visit state.1 state.2
  let pos ← follow (memory after) state.1
  return (pos, after)

/-- The loop over the list of `head`, from behind `entry` on, takes the state
`start` to `finish`. -/
def ForEachFrom (entry : ListPtr α) (start finish : σ) : Prop :=
  ∃ pos tested, follow (memory start) entry = some pos ∧
    Ends (forEachTest head) (forEachBody follow memory visit) (pos, start)
      tested (.node head, finish)

/-- `list_for_each`. -/
abbrev ListForEach (start finish : σ) : Prop :=
  ForEachFrom readNext memory visit head (.node head) start finish

/-- `list_for_each_entry_reverse`. -/
abbrev ListForEachReverse (start finish : σ) : Prop :=
  ForEachFrom readPrev memory visit head (.node head) start finish

/-- `list_for_each_entry_continue`. -/
abbrev ListForEachContinue (pos : ListPtr α) (start finish : σ) : Prop :=
  ForEachFrom readNext memory visit head pos start finish

/-- `prefetch(pos->prev), pos != head`. -/
def forEachPrevTest (state : ListPtr α × σ) : Option Bool := do
  let _ ← readPrev (memory state.2) state.1
  return decide (state.1 ≠ .node head)

/-- `list_for_each_prev`. -/
def ListForEachPrev (start finish : σ) : Prop :=
  ∃ pos tested, readPrev (memory start) (.node head) = some pos ∧
    Ends (forEachPrevTest memory head) (forEachBody readPrev memory visit)
      (pos, start) tested (.node head, finish)

/-- `pos != head`, with the entry read ahead in the state. -/
def forEachSafeTest (state : ListPtr α × ListPtr α × σ) : Option Bool :=
  some (decide (state.1 ≠ .node head))

/-- The body, then `pos = n, n = pos->next`. -/
def forEachSafeBody (state : ListPtr α × ListPtr α × σ) :
    Option (ListPtr α × ListPtr α × σ) := do
  let after ← visit state.1 state.2.2
  let pos := state.2.1
  let n ← follow (memory after) pos
  return (pos, n, after)

/-- The loop with the entry read ahead, from behind `entry` on. -/
def ForEachSafeFrom (entry : ListPtr α) (start finish : σ) : Prop :=
  ∃ pos n last tested, follow (memory start) entry = some pos ∧
    follow (memory start) pos = some n ∧
    Ends (forEachSafeTest head) (forEachSafeBody follow memory visit)
      (pos, n, start) tested (.node head, last, finish)

/-- `list_for_each_safe`. -/
abbrev ListForEachSafe (start finish : σ) : Prop :=
  ForEachSafeFrom readNext memory visit head (.node head) start finish

/-- `list_for_each_entry_safe_continue`. -/
abbrev ListForEachSafeContinue (pos : ListPtr α) (start finish : σ) : Prop :=
  ForEachSafeFrom readNext memory visit head pos start finish

/-- `list_for_each_entry_safe_reverse`. -/
abbrev ListForEachSafeReverse (start finish : σ) : Prop :=
  ForEachSafeFrom readPrev memory visit head (.node head) start finish

variable {memory visit head} in
/-- Reading the pointer in the test of `list_for_each_prev` changes nothing:
where there is none to read, the loop does not get behind the body either. -/
theorem listForEachPrev_iff {start finish : σ} :
    ListForEachPrev memory visit head start finish ↔
      ListForEachReverse memory visit head start finish := by
  have htest : ∀ state,
      forEachPrevTest memory head state = forEachTest head state ∨
        forEachPrevTest memory head state = none ∧
          forEachTest head state = some true ∧
            forEachBody readPrev memory visit state = none := by
    rintro ⟨pos, state⟩
    cases pos with
    | node x => exact Or.inl rfl
    | null => exact Or.inr ⟨rfl, rfl, by simp [forEachBody, readPrev]⟩
    | poison1 => exact Or.inr ⟨rfl, rfl, by simp [forEachBody, readPrev]⟩
    | poison2 => exact Or.inr ⟨rfl, rfl, by simp [forEachBody, readPrev]⟩
  simp only [ListForEachPrev, ForEachFrom, ends_congr htest]

end Loops

/-- The pointers lead from the head through the nodes in this order and back to
the head. -/
def LeadsThrough (follow : Follow α) (memory : ListMemory α) (h : α)
    (xs : List α) : Prop :=
  follow memory (.node h) = some (.node (xs.headD h)) ∧
    ∀ front x rest, xs = front ++ x :: rest →
      follow memory (.node x) = some (.node (rest.headD h))

variable {memory : ListMemory α} {world : ListWorld α} {h : α}
  {before behind xs : List α}

/-- The pointer of the last entry before the others leads to the first of
them; the last of no entries is the head. -/
theorem LeadsThrough.follow_getLastD {follow : Follow α}
    (hleads : LeadsThrough follow memory h (before ++ behind)) :
    follow memory (.node (before.getLastD h)) =
      some (.node (behind.headD h)) := by
  rcases List.eq_nil_or_concat before with rfl | ⟨front, x, rfl⟩
  · exact hleads.1
  · have hsplit : front.concat x ++ behind = front ++ x :: behind := by simp
    have hlast : (front.concat x).getLastD h = x := by simp
    rw [hlast]
    exact hleads.2 front x behind hsplit

theorem leadsThrough_next
    (hring : IsRing (listLinks memory) (h :: xs : List α)) :
    LeadsThrough readNext memory h xs := by
  constructor
  · rw [readNext_node, (joined_iff.mp hring.joined_first).1]
  · rintro front x rest rfl
    rw [readNext_node, (joined_iff.mp hring.joined_next).1]

theorem leadsThrough_prev
    (hring : IsRing (listLinks memory) (h :: xs : List α)) :
    LeadsThrough readPrev memory h xs.reverse := by
  have hlast : ∀ (ys : List α), ys.getLastD h = ys.reverse.headD h := by
    intro ys
    simp
  constructor
  · rw [readPrev_node, (joined_iff.mp hring.joined_last).2, hlast]
  · intro front x rest hsplit
    have hxs : xs = rest.reverse ++ x :: front.reverse := by
      rw [← List.reverse_reverse xs, hsplit]
      simp
    subst hxs
    rw [readPrev_node, (joined_iff.mp hring.joined_prev).2, hlast,
      List.reverse_reverse]

/-- The two directions in which a loop goes through a list. -/
inductive Direction
  | forward
  | backward
  deriving DecidableEq, Repr

namespace Direction

/-- The pointer the loop follows. -/
def follow : Direction → Follow α
  | .forward => readNext
  | .backward => readPrev

/-- The poison value the loop finds in an entry that was deleted. -/
def poison : Direction → ListPtr α
  | .forward => .poison1
  | .backward => .poison2

/-- The order in which the loop meets the entries of a list. -/
def order : Direction → List α → List α
  | .forward, xs => xs
  | .backward, xs => xs.reverse

variable (direction : Direction)

theorem follow_node {x : α} :
    direction.follow memory (.node x) = some (match direction with
      | .forward => (memory x).next
      | .backward => (memory x).prev) := by
  cases direction with
  | forward => rfl
  | backward => rfl

@[simp] theorem order_order : direction.order (direction.order xs) = xs := by
  cases direction with
  | forward => rfl
  | backward => exact List.reverse_reverse xs

@[simp] theorem mem_order {x : α} : x ∈ direction.order xs ↔ x ∈ xs := by
  cases direction with
  | forward => rfl
  | backward => exact List.mem_reverse

@[simp] theorem nodup_order : (direction.order xs).Nodup ↔ xs.Nodup := by
  cases direction with
  | forward => rfl
  | backward => exact List.nodup_reverse

theorem erase_order [DecidableEq α] (hnodup : xs.Nodup) (x : α) :
    (direction.order xs).erase x = direction.order (xs.erase x) := by
  cases direction with
  | forward => rfl
  | backward =>
      rw [order, order, hnodup.erase_eq_filter,
        (List.nodup_reverse.mpr hnodup).erase_eq_filter, List.filter_reverse]

theorem leadsThrough
    (hring : IsRing (listLinks memory) (h :: xs : List α)) :
    LeadsThrough direction.follow memory h (direction.order xs) := by
  cases direction with
  | forward => exact leadsThrough_next hring
  | backward => exact leadsThrough_prev hring

end Direction

/-! ## The rule of each loop -/

section Rules

variable [DecidableEq α] {follow : Follow α} {mem : σ → ListMemory α}
  {visit : ListPtr α → σ → Option σ} {start finish : σ}
  {Inv : List α → σ → Prop} {entry : ListPtr α}

/-- The plain loop, with an invariant of the entries to come: the body at an
entry leaves its pointer to the one behind it. -/
theorem forEach_ends_iff
    (hbody : ∀ x rest s, Inv (x :: rest) s → x ≠ h ∧ ∃ s',
      visit (.node x) s = some s' ∧ Inv rest s' ∧
        follow (mem s') (.node x) = some (.node (rest.headD h)))
    (hentry : follow (mem start) entry = some (.node (xs.headD h)))
    (hstart : Inv xs start) :
    ∃ finish, Inv [] finish ∧
      ∀ s, ForEachFrom follow mem visit h entry start s ↔ s = finish := by
  -- the loop at its test, with `rest` to come
  suffices hloop : ∀ rest s, Inv rest s → ∃ finish, Inv [] finish ∧
      ∀ t, (∃ tested, Ends (forEachTest h) (forEachBody follow mem visit)
        (.node (rest.headD h), s) tested (.node h, t)) ↔ t = finish by
    obtain ⟨finish, hfinish, hends⟩ := hloop xs start hstart
    refine ⟨finish, hfinish, fun s => ?_⟩
    rw [← hends s]
    constructor
    · rintro ⟨pos, tested, hpos, hloop⟩
      obtain rfl := Option.some.inj (hentry.symm.trans hpos)
      exact ⟨tested, hloop⟩
    · rintro ⟨tested, hloop⟩
      exact ⟨_, tested, hentry, hloop⟩
  intro rest
  induction rest with
  | nil =>
      intro s hs
      refine ⟨s, hs, fun t => ?_⟩
      have htest : forEachTest h (.node (List.headD [] h), s) = some false := by
        simp [forEachTest]
      simp only [ends_of_false htest]
      constructor
      · rintro ⟨-, -, hlast⟩
        exact (Prod.mk.inj hlast).2
      · rintro rfl
        exact ⟨_, rfl, rfl⟩
  | cons x rest ih =>
      intro s hs
      obtain ⟨hxh, s', hvisit, hs', hnext⟩ := hbody x rest s hs
      obtain ⟨finish, hfinish, hends⟩ := ih s' hs'
      refine ⟨finish, hfinish, fun t => ?_⟩
      have htest : forEachTest h (.node ((x :: rest).headD h), s) =
          some true := by
        simp [forEachTest, hxh]
      have hbody : forEachBody follow mem visit
          (.node ((x :: rest).headD h), s) =
            some (.node (rest.headD h), s') := by
        simp only [forEachBody, List.headD_cons, hvisit, hnext,
          Option.bind_eq_bind, Option.bind_some]
        rfl
      rw [← hends t]
      simp only [ends_of_true htest hbody]
      constructor
      · rintro ⟨tested, rest, -, hends⟩
        exact ⟨rest, hends⟩
      · rintro ⟨rest, hends⟩
        exact ⟨_, rest, rfl, hends⟩

/-- What the loop that reads ahead has in `n` when `rest` is to come: the node
behind the first of `rest`. -/
def ReadsAhead (follow : Follow α) (memory : ListMemory α) (h : α)
    (rest : List α) (n : ListPtr α) : Prop :=
  follow memory (.node (rest.headD h)) = some n ∧
    (rest ≠ [] → n = .node (rest.tail.headD h))

/-- The loop that reads ahead, with an invariant of the entries to come: the
body may change every pointer of its entry. -/
theorem forEachSafe_ends_iff
    (hbody : ∀ x rest s, Inv (x :: rest) s → x ≠ h ∧ ∃ s' n,
      visit (.node x) s = some s' ∧ Inv rest s' ∧
        ReadsAhead follow (mem s') h rest n)
    (hentry : follow (mem start) entry = some (.node (xs.headD h)))
    {n : ListPtr α} (hn : ReadsAhead follow (mem start) h xs n)
    (hstart : Inv xs start) :
    ∃ finish, Inv [] finish ∧
      ∀ s, ForEachSafeFrom follow mem visit h entry start s ↔ s = finish := by
  -- the loop at its test, with `rest` to come and the entry behind it in `n`
  suffices hloop : ∀ rest s n, Inv rest s →
      (rest ≠ [] → n = .node (rest.tail.headD h)) →
      ∃ finish, Inv [] finish ∧
      ∀ t, (∃ last tested, Ends (forEachSafeTest h)
        (forEachSafeBody follow mem visit) (.node (rest.headD h), n, s) tested
        (.node h, last, t)) ↔ t = finish by
    obtain ⟨finish, hfinish, hends⟩ := hloop xs start n hstart hn.2
    refine ⟨finish, hfinish, fun s => ?_⟩
    rw [← hends s]
    constructor
    · rintro ⟨pos, n', last, tested, hpos, hn', hloop⟩
      obtain rfl := Option.some.inj (hentry.symm.trans hpos)
      obtain rfl := Option.some.inj (hn.1.symm.trans hn')
      exact ⟨last, tested, hloop⟩
    · rintro ⟨last, tested, hloop⟩
      exact ⟨_, n, last, tested, hentry, hn.1, hloop⟩
  intro rest
  induction rest with
  | nil =>
      intro s n hs _
      refine ⟨s, hs, fun t => ?_⟩
      have htest : forEachSafeTest h (.node (List.headD [] h), n, s) =
          some false := by
        simp [forEachSafeTest]
      simp only [ends_of_false htest]
      constructor
      · rintro ⟨last, tested, -, hlast⟩
        exact (Prod.mk.inj (Prod.mk.inj hlast).2).2
      · rintro rfl
        exact ⟨_, _, rfl, rfl⟩
  | cons x rest ih =>
      intro s n hs hn
      obtain ⟨hxh, s', n', hvisit, hs', hahead⟩ := hbody x rest s hs
      obtain ⟨finish, hfinish, hends⟩ := ih s' n' hs' hahead.2
      refine ⟨finish, hfinish, fun t => ?_⟩
      have htest : forEachSafeTest h (.node ((x :: rest).headD h), n, s) =
          some true := by
        simp [forEachSafeTest, hxh]
      have hbody : forEachSafeBody follow mem visit
          (.node ((x :: rest).headD h), n, s) =
            some (.node (rest.headD h), n', s') := by
        obtain rfl := hn (List.cons_ne_nil x rest)
        simp only [forEachSafeBody, List.headD_cons, List.tail_cons, hvisit,
          hahead.1, Option.bind_eq_bind, Option.bind_some]
        rfl
      rw [← hends t]
      simp only [ends_of_true htest hbody]
      constructor
      · rintro ⟨last, tested, rest, -, hends⟩
        exact ⟨last, rest, hends⟩
      · rintro ⟨last, rest, hends⟩
        exact ⟨last, _, rest, rfl, hends⟩

end Rules

/-! ## Visiting the entries in order -/

/-- A body that writes down the entries it is called at. -/
def collect (pos : ListPtr α) (state : ListMemory α × List (ListPtr α)) :
    Option (ListMemory α × List (ListPtr α)) :=
  some (state.1, state.2 ++ [pos])

variable [DecidableEq α] {follow : Follow α}

theorem forEach_collect_iff
    (hleads : LeadsThrough follow memory h (before ++ behind))
    (hnotMem : h ∉ behind) (finish : ListMemory α × List (ListPtr α)) :
    ForEachFrom follow Prod.fst collect h (.node (before.getLastD h))
        (memory, []) finish ↔
      finish = (memory, behind.map .node) := by
  let Inv : List α → ListMemory α × List (ListPtr α) → Prop := fun rest s =>
    ∃ front, behind = front ++ rest ∧ s = (memory, front.map .node)
  have hbody : ∀ x rest s, Inv (x :: rest) s → x ≠ h ∧ ∃ s',
      collect (.node x) s = some s' ∧ Inv rest s' ∧
        follow (Prod.fst s') (.node x) = some (.node (rest.headD h)) := by
    rintro x rest s ⟨front, hbehind, rfl⟩
    have hxh : x ≠ h := by
      intro heq
      exact hnotMem (by simp [hbehind, heq])
    refine ⟨hxh, _, rfl, ⟨front ++ [x], by simp [hbehind], by simp⟩, ?_⟩
    exact hleads.2 (before ++ front) x rest (by simp [hbehind])
  have hstart : Inv behind (memory, []) := ⟨[], rfl, rfl⟩
  obtain ⟨last, ⟨front, hbehind, rfl⟩, hends⟩ :=
    forEach_ends_iff hbody hleads.follow_getLastD hstart
  rw [hends finish, hbehind, List.append_nil]

/-- What a client can observe of a list: whether it is empty, its entries in
order from both ends, and those behind each entry. -/
structure Observed (memory : ListMemory α) (h : α) (xs : List α) : Prop where
  empty : listEmpty memory (.node h) = some (decide (xs = []))
  forward : ∀ finish, ListForEach Prod.fst collect h (memory, []) finish ↔
    finish = (memory, xs.map .node)
  backward : ∀ finish,
    ListForEachReverse Prod.fst collect h (memory, []) finish ↔
      finish = (memory, xs.reverse.map .node)
  continued : ∀ before behind, xs = before ++ behind → ∀ finish,
    ListForEachContinue Prod.fst collect h (.node (before.getLastD h))
      (memory, []) finish ↔ finish = (memory, behind.map .node)

theorem RepresentsLists.observed (hrep : RepresentsLists memory world)
    (hxs : world.entries h = some xs) : Observed memory h xs := by
  have hring := hrep.rings h xs hxs
  have hnotMem : h ∉ xs := (List.nodup_cons.mp (world.separated.nodup hxs)).1
  have hcontinued : ∀ before behind, xs = before ++ behind → ∀ finish,
      ListForEachContinue Prod.fst collect h (.node (before.getLastD h))
        (memory, []) finish ↔ finish = (memory, behind.map .node) := by
    rintro before behind rfl
    exact forEach_collect_iff (leadsThrough_next hring)
      fun hmem => hnotMem (List.mem_append_right before hmem)
  have hleads : LeadsThrough readPrev memory h ([] ++ xs.reverse) :=
    leadsThrough_prev hring
  exact ⟨listEmpty_of_entries hrep.rings world.separated hxs,
    hcontinued [] xs rfl,
    forEach_collect_iff hleads (fun hmem => hnotMem (List.mem_reverse.mp hmem)),
    hcontinued⟩

end NickDB

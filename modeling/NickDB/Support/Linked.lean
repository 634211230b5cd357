import Mathlib.Data.List.FinRange
import Mathlib.Data.List.Nodup
import Mathlib.Data.Set.Basic
import Mathlib.Data.Nat.Notation

/-!
# Singly linked chains

A singly linked structure is a partial function `next` on its nodes: `next x`
is the node the link of `x` names, or `none` when that link is null.  A *path*
is a finite walk along the links; a *chain* is a path that ends at the null
link.  Nothing here depends on where the links are stored, so the same lemmas
serve links kept in an array of records and links kept inside the bytes of a
file.
-/

namespace Linked

variable {α : Type*}

/-- Following `next` from the cursor `start` visits `nodes` in this order and
leaves the cursor at `stop`. -/
def Path (next : α → Option α) : Option α → List α → Option α → Prop
  | start, [], stop => start = stop
  | start, x :: xs, stop => start = some x ∧ Path next (next x) xs stop

/-- A path that ends at the null link. -/
abbrev Chain (next : α → Option α) (start : Option α) (nodes : List α) : Prop :=
  Path next start nodes none

/-- The cursor `start` reaches the node `x` along the links. -/
def Reaches (next : α → Option α) (start : Option α) (x : α) : Prop :=
  ∃ nodes, Path next start nodes (some x)

@[simp] theorem path_nil {next : α → Option α} {start stop : Option α} :
    Path next start [] stop ↔ start = stop := Iff.rfl

@[simp] theorem path_cons {next : α → Option α} {start stop : Option α}
    {x : α} {xs : List α} :
    Path next start (x :: xs) stop ↔
      start = some x ∧ Path next (next x) xs stop := Iff.rfl

/-- A path over a concatenation is a path to the seam and a path from it. -/
theorem path_append {next : α → Option α} {start stop : Option α}
    {xs ys : List α} :
    Path next start (xs ++ ys) stop ↔
      ∃ seam, Path next start xs seam ∧ Path next seam ys stop := by
  induction xs generalizing start with
  | nil => simp
  | cons x xs ih =>
      simp only [List.cons_append, path_cons, ih]
      constructor
      · rintro ⟨hstart, seam, hxs, hys⟩
        exact ⟨seam, ⟨hstart, hxs⟩, hys⟩
      · rintro ⟨seam, ⟨hstart, hxs⟩, hys⟩
        exact ⟨hstart, seam, hxs, hys⟩

theorem path_append_singleton {next : α → Option α} {start stop : Option α}
    {xs : List α} {x : α} :
    Path next start (xs ++ [x]) stop ↔
      Path next start xs (some x) ∧ next x = stop := by
  rw [path_append]
  constructor
  · rintro ⟨seam, hxs, rfl, hstop⟩
    exact ⟨hxs, hstop⟩
  · rintro ⟨hxs, hstop⟩
    exact ⟨some x, hxs, rfl, hstop⟩

/-- A path reads only the links of the nodes it visits. -/
theorem Path.congr {next next' : α → Option α} {start stop : Option α}
    {xs : List α} (h : Path next start xs stop)
    (hsame : ∀ x ∈ xs, next' x = next x) :
    Path next' start xs stop := by
  induction xs generalizing start with
  | nil => exact h
  | cons x xs ih =>
      obtain ⟨hstart, hrest⟩ := h
      refine ⟨hstart, ?_⟩
      rw [hsame x List.mem_cons_self]
      exact ih hrest fun y hy => hsame y (List.mem_cons_of_mem x hy)

/-- Every node of a path is reached by it. -/
theorem Path.reaches {next : α → Option α} {start stop : Option α}
    {xs : List α} (h : Path next start xs stop) {x : α} (hx : x ∈ xs) :
    Reaches next start x := by
  obtain ⟨front, back, rfl⟩ := List.append_of_mem hx
  obtain ⟨seam, hfront, rfl, -⟩ := path_append.mp h
  exact ⟨front, hfront⟩

/-- A cursor is the start of at most one chain. -/
theorem Chain.unique {next : α → Option α} {start : Option α}
    {xs ys : List α} (hxs : Chain next start xs) (hys : Chain next start ys) :
    xs = ys := by
  induction xs generalizing start ys with
  | nil =>
      cases ys with
      | nil => rfl
      | cons y ys => simp_all
  | cons x xs ih =>
      cases ys with
      | nil => simp_all
      | cons y ys =>
          obtain ⟨hx, hxs⟩ := hxs
          obtain ⟨hy, hys⟩ := hys
          obtain rfl : x = y := Option.some.inj (hx.symm.trans hy)
          rw [ih hxs hys]

/-- Two structures with a path in common agree on the links of its nodes. -/
theorem Path.link_unique {next next' : α → Option α} {start stop : Option α}
    {xs : List α} (h : Path next start xs stop)
    (h' : Path next' start xs stop) : ∀ x ∈ xs, next' x = next x := by
  induction xs generalizing start with
  | nil => simp
  | cons x xs ih =>
      obtain ⟨rfl, hrest⟩ := h
      obtain ⟨-, hrest'⟩ := h'
      have hlink : next' x = next x := by
        cases xs with
        | nil => exact hrest'.trans hrest.symm
        | cons y ys => exact hrest'.1.trans hrest.1.symm
      intro z hz
      rcases List.mem_cons.mp hz with rfl | hz
      · exact hlink
      · exact ih hrest (hlink ▸ hrest') z hz

/-- A chain never visits a node twice: the two tails behind a repeated node
would be chains of different lengths from one cursor. -/
theorem Chain.nodup {next : α → Option α} {start : Option α} {xs : List α}
    (h : Chain next start xs) : xs.Nodup := by
  induction xs generalizing start with
  | nil => exact List.nodup_nil
  | cons x xs ih =>
      refine List.nodup_cons.mpr ⟨?_, ih h.2⟩
      intro hx
      obtain ⟨front, back, rfl⟩ := List.append_of_mem hx
      obtain ⟨seam, -, hback⟩ := path_append.mp h.2
      have hlen := congrArg List.length (Chain.unique h.2 hback.2)
      simp only [List.length_append, List.length_cons] at hlen
      omega

/-- The nodes of a chain are exactly the reachable ones. -/
theorem Chain.mem_iff_reaches {next : α → Option α} {start : Option α}
    {xs : List α} (h : Chain next start xs) {x : α} :
    x ∈ xs ↔ Reaches next start x := by
  refine ⟨h.reaches, ?_⟩
  rintro ⟨front, hfront⟩
  induction front generalizing start xs with
  | nil =>
      cases xs with
      | nil => simp_all
      | cons y ys => simp_all
  | cons z front ih =>
      cases xs with
      | nil => simp_all
      | cons y ys =>
          obtain rfl : z = y := Option.some.inj (hfront.1.symm.trans h.1)
          exact List.mem_cons_of_mem z (ih h.2 hfront.2)

/-! ## Editing the links -/

/-- Pushing a node whose link names the old head. -/
theorem Path.push {next next' : α → Option α} {start stop : Option α}
    {xs : List α} {x : α} (h : Path next start xs stop)
    (hlink : next' x = start) (hsame : ∀ y ∈ xs, next' y = next y) :
    Path next' (some x) (x :: xs) stop :=
  ⟨rfl, hlink ▸ h.congr hsame⟩

/-- Linking the last node to `x` and ending the path at `x` puts `x` last.  If
`x` was visited before, the path is cut there and the nodes behind it drop
out. -/
theorem Path.enqueue [DecidableEq α] {next next' : α → Option α}
    {start stop stop' : Option α} {front : List α} {last x : α}
    (h : Path next start (front ++ [last]) stop)
    (hx : next' x = stop') (hlast : last ≠ x → next' last = some x)
    (hsame : ∀ y ∈ front, y ≠ x → next' y = next y) :
    Path next' start ((front ++ [last]).takeWhile (· ≠ x) ++ [x]) stop' := by
  induction front generalizing start with
  | nil =>
      obtain ⟨rfl, -⟩ := h
      by_cases heq : last = x
      · subst heq
        simpa using hx
      · simpa [heq] using ⟨hlast heq, hx⟩
  | cons y ys ih =>
      obtain ⟨rfl, hrest⟩ := h
      by_cases heq : y = x
      · subst heq
        simpa using hx
      · have hys := ih hrest fun z hz => hsame z (List.mem_cons_of_mem y hz)
        rw [← hsame y List.mem_cons_self heq] at hys
        simpa [heq] using hys

/-- A node linked back to itself starts no chain. -/
theorem not_chain_of_cycle {next : α → Option α} {x : α} {xs ys : List α}
    (hcycle : Path next (some x) (x :: xs) (some x)) :
    ¬Chain next (some x) ys := by
  intro hchain
  cases ys with
  | nil => simp at hchain
  | cons y ys =>
      obtain rfl : x = y := Option.some.inj hchain.1
      have hloop : Chain next (some x) ((x :: xs) ++ (x :: ys)) :=
        path_append.mpr ⟨some x, hcycle, hchain⟩
      have hlen := congrArg List.length (Chain.unique hloop hchain)
      simp only [List.length_append, List.length_cons] at hlen
      omega

/-- A node stays reached when only links of the node itself are edited. -/
theorem Reaches.edit {next next' : α → Option α} {start : Option α} {x : α}
    (h : Reaches next start x) (hsame : ∀ y, y ≠ x → next' y = next y) :
    Reaches next' start x := by
  obtain ⟨nodes, hnodes⟩ := h
  induction nodes generalizing start with
  | nil => exact ⟨[], hnodes⟩
  | cons y ys ih =>
      obtain ⟨rfl, hrest⟩ := hnodes
      by_cases heq : y = x
      · exact ⟨[], congrArg some heq⟩
      · obtain ⟨zs, hzs⟩ := ih hrest
        exact ⟨y :: zs, rfl, (hsame y heq).symm ▸ hzs⟩

theorem not_reaches_none {next : α → Option α} {x : α} :
    ¬Reaches next none x := by
  rintro ⟨nodes, hnodes⟩
  cases nodes with
  | nil => cases hnodes
  | cons y ys => cases hnodes.1

theorem reaches_some_iff {next : α → Option α} {x y : α} :
    Reaches next (some x) y ↔ y = x ∨ Reaches next (next x) y := by
  constructor
  · rintro ⟨nodes, hnodes⟩
    cases nodes with
    | nil => exact Or.inl (Option.some.inj hnodes).symm
    | cons z zs =>
        obtain ⟨hstart, hrest⟩ := hnodes
        obtain rfl := Option.some.inj hstart
        exact Or.inr ⟨zs, hrest⟩
  · rintro (rfl | ⟨nodes, hnodes⟩)
    · exact ⟨[], rfl⟩
    · exact ⟨x :: nodes, rfl, hnodes⟩

/-- The link of a node that is not reached does not matter. -/
theorem reaches_edit_iff {next next' : α → Option α} {start : Option α}
    {x y : α} (hx : ¬Reaches next start x)
    (hsame : ∀ z, z ≠ x → next' z = next z) :
    Reaches next' start y ↔ Reaches next start y := by
  constructor
  · rintro ⟨nodes, hnodes⟩
    induction nodes generalizing start with
    | nil => exact ⟨[], hnodes⟩
    | cons z zs ih =>
        obtain ⟨rfl, hrest⟩ := hnodes
        rw [reaches_some_iff, not_or] at hx
        rw [hsame z (Ne.symm hx.1)] at hrest
        exact reaches_some_iff.mpr (Or.inr (ih hx.2 hrest))
  · rintro ⟨nodes, hnodes⟩
    refine ⟨nodes, hnodes.congr fun z hz => hsame z ?_⟩
    rintro rfl
    exact hx (hnodes.reaches hz)

/-- Linking a node to the start of a list reaches no further nodes, also where
the node is on the list already. -/
theorem Reaches.of_push {next next' : α → Option α} {start entry : Option α}
    {x y : α} (h : Reaches next' entry y) (hx : next' x = start)
    (hsame : ∀ z, z ≠ x → next' z = next z)
    (hentry : ∀ z, Reaches next entry z → Reaches next start z) :
    Reaches next start y := by
  obtain ⟨nodes, hnodes⟩ := h
  induction nodes generalizing entry with
  | nil => exact hentry y ⟨[], hnodes⟩
  | cons z zs ih =>
      obtain ⟨rfl, hrest⟩ := hnodes
      by_cases hzx : z = x
      · rw [hzx, hx] at hrest
        exact ih (fun _ hreaches => hreaches) hrest
      · rw [hsame z hzx] at hrest
        refine ih (fun w hw => hentry w ?_) hrest
        exact reaches_some_iff.mpr (Or.inr hw)

/-- A node that is reached from its own link starts no chain. -/
theorem not_chain_of_reaches_self {next : α → Option α} {x : α} {ys : List α}
    (h : Reaches next (next x) x) : ¬Chain next (some x) ys := by
  obtain ⟨nodes, hnodes⟩ := h
  exact @not_chain_of_cycle _ next x nodes ys ⟨rfl, hnodes⟩

/-! ## Links that end -/

/-- Following `next` from `start` comes to the null link. -/
def Ends (next : α → Option α) (start : Option α) : Prop :=
  ∃ xs, Chain next start xs

theorem ends_none (next : α → Option α) : Ends next none :=
  ⟨[], rfl⟩

theorem ends_some_iff {next : α → Option α} {x : α} :
    Ends next (some x) ↔ Ends next (next x) := by
  constructor
  · rintro ⟨xs, hxs⟩
    cases xs with
    | nil => cases hxs
    | cons y ys =>
        obtain ⟨hstart, hrest⟩ := hxs
        obtain rfl := Option.some.inj hstart
        exact ⟨ys, hrest⟩
  · rintro ⟨xs, hxs⟩
    exact ⟨x :: xs, rfl, hxs⟩

/-- From a node on the way on, the links end exactly if they end at all. -/
theorem Reaches.ends_iff {next : α → Option α} {start : Option α} {x : α}
    (h : Reaches next start x) : Ends next start ↔ Ends next (some x) := by
  obtain ⟨nodes, hnodes⟩ := h
  induction nodes generalizing start with
  | nil => rw [hnodes]
  | cons y ys ih =>
      obtain ⟨rfl, hrest⟩ := hnodes
      rw [ends_some_iff, ih hrest]

/-- Links that end do not lead back to a node they have passed. -/
theorem Ends.not_reaches_self {next : α → Option α} {x : α}
    (h : Ends next (some x)) : ¬Reaches next (next x) x := by
  obtain ⟨xs, hxs⟩ := h
  exact fun hreaches => not_chain_of_reaches_self hreaches hxs

/-- A chain does not use the links of nodes it does not reach. -/
theorem Chain.edit {next next' : α → Option α} {start : Option α} {x : α}
    {xs : List α} (h : Chain next start xs) (hx : ¬Reaches next start x)
    (hsame : ∀ y, y ≠ x → next' y = next y) : Chain next' start xs := by
  apply h.congr
  intro y hy
  apply hsame
  rintro rfl
  exact hx (h.reaches hy)

theorem ends_edit_iff {next next' : α → Option α} {start : Option α} {x : α}
    (hx : ¬Reaches next start x) (hsame : ∀ y, y ≠ x → next' y = next y) :
    Ends next' start ↔ Ends next start := by
  have hx' : ¬Reaches next' start x := by
    rwa [reaches_edit_iff hx hsame]
  constructor
  · rintro ⟨xs, hxs⟩
    exact ⟨xs, hxs.edit hx' fun y hy => (hsame y hy).symm⟩
  · rintro ⟨xs, hxs⟩
    exact ⟨xs, hxs.edit hx hsame⟩

/-- A node that is linked to the start of a list heads links that end exactly
if those of the list do and do not lead to the node. -/
theorem ends_push_iff {next next' : α → Option α} {start : Option α} {x : α}
    (hlink : next' x = start) (hsame : ∀ y, y ≠ x → next' y = next y) :
    Ends next' (some x) ↔ ¬Reaches next start x ∧ Ends next start := by
  rw [ends_some_iff, hlink]
  by_cases hx : Reaches next start x
  · refine iff_of_false (fun hends => ?_) fun hnot => hnot.1 hx
    have hreaches : Reaches next' (next' x) x := hlink ▸ hx.edit hsame
    refine Ends.not_reaches_self ?_ hreaches
    rwa [ends_some_iff, hlink]
  · rw [ends_edit_iff hx hsame]
    exact (and_iff_right hx).symm

/-- Cutting the node behind `x` out of links that end. -/
theorem Ends.skip {next next' : α → Option α} {start : Option α} {x y : α}
    (h : Ends next start) (hy : next x = some y) (hlink : next' x = next y)
    (hsame : ∀ z, z ≠ x → next' z = next z) : Ends next' start := by
  by_cases hx : Reaches next start x
  · have hends : Ends next (some x) := hx.ends_iff.mp h
    have hback : ¬Reaches next (next y) x := by
      intro hreaches
      refine hends.not_reaches_self ?_
      rw [hy]
      exact reaches_some_iff.mpr (Or.inr hreaches)
    rw [(hx.edit hsame).ends_iff, ends_push_iff hlink hsame]
    refine ⟨hback, ?_⟩
    rwa [ends_some_iff, hy, ends_some_iff] at hends
  · rwa [ends_edit_iff hx hsame]

/-! ## Chains through the same nodes -/

/-- The start and the links of a chain lead to each of its nodes once, and to
the null link once. -/
theorem Chain.targets {next : α → Option α} {start : Option α} {xs : List α}
    (h : Chain next start xs) :
    start :: xs.map next = xs.map some ++ [none] := by
  induction xs generalizing start with
  | nil => exact congrArg (fun target => [target]) h
  | cons x xs ih =>
      obtain ⟨rfl, hrest⟩ := h
      rw [List.map_cons, ih hrest]
      rfl

/-- No link of a chain leads back to its start. -/
theorem Chain.next_ne_start {next : α → Option α} {start : Option α}
    {xs : List α} (h : Chain next start xs) {x : α} (hx : x ∈ xs) :
    next x ≠ start := by
  have hnodup : (xs.map some ++ [none]).Nodup := by
    rw [List.nodup_append]
    refine ⟨h.nodup.map fun _ _ heq => Option.some.inj heq,
      List.nodup_singleton none, ?_⟩
    simp
  rw [← h.targets] at hnodup
  intro heq
  apply (List.nodup_cons.mp hnodup).1
  rw [← heq]
  exact List.mem_map_of_mem hx

/-- A node of a chain that is not the first one is linked to by another one. -/
theorem Chain.exists_prev {next : α → Option α} {start : Option α}
    {xs : List α} (h : Chain next start xs) {x : α} (hx : x ∈ xs)
    (hstart : start ≠ some x) : ∃ y ∈ xs, y ≠ x ∧ next y = some x := by
  have hnodup := h.nodup
  obtain ⟨front, back, rfl⟩ := List.append_of_mem hx
  obtain ⟨seam, hfront, rfl, -⟩ := path_append.mp h
  rcases List.eq_nil_or_concat front with rfl | ⟨front, y, rfl⟩
  · exact absurd hfront hstart
  · rw [List.concat_eq_append] at hfront hnodup ⊢
    refine ⟨y, by simp, ?_, (path_append_singleton.mp hfront).2⟩
    rintro rfl
    exact (List.nodup_append.mp hnodup).2.2 y (by simp) y
      List.mem_cons_self rfl

/-- The links of a chain lead to its nodes. -/
theorem Chain.next_mem {next : α → Option α} {start : Option α} {xs : List α}
    (h : Chain next start xs) {x y : α} (hy : y ∈ xs)
    (hnext : next y = some x) : x ∈ xs := by
  obtain ⟨nodes, hnodes⟩ := h.mem_iff_reaches.mp hy
  apply h.mem_iff_reaches.mpr
  exact ⟨nodes ++ [y], path_append_singleton.mpr ⟨hnodes, hnext⟩⟩

/-- Two chains through the same nodes, in whatever order, lead to the same. -/
theorem Chain.targets_perm {next next' : α → Option α}
    {start start' : Option α} {xs ys : List α} (h : Chain next start xs)
    (h' : Chain next' start' ys) (hperm : ys.Perm xs) :
    (start' :: xs.map next').Perm (start :: xs.map next) := by
  have hlinks : (start' :: xs.map next').Perm (start' :: ys.map next') :=
    (hperm.symm.map next').cons start'
  have hnodes : (ys.map some ++ [none]).Perm (xs.map some ++ [none]) :=
    (hperm.map some).append_right [none]
  rw [← h'.targets, ← h.targets] at hnodes
  exact hlinks.trans hnodes

/-- The nodes and their links determine the start. -/
theorem Chain.start_eq {next next' : α → Option α} {start start' : Option α}
    {xs ys : List α} (h : Chain next start xs) (h' : Chain next' start' ys)
    (hperm : ys.Perm xs) (hsame : ∀ x ∈ xs, next' x = next x) :
    start' = start := by
  have htargets := h.targets_perm h' hperm
  rw [List.map_congr_left hsame] at htargets
  have hstart : [start'].Perm [start] :=
    (List.perm_append_right_iff (xs.map next)).mp htargets
  exact List.singleton_perm_singleton.mp hstart

/-- The nodes, the start and the links of all nodes but one determine the link
of that one. -/
theorem Chain.link_eq {next next' : α → Option α} {start : Option α}
    {xs ys : List α} (h : Chain next start xs) (h' : Chain next' start ys)
    (hperm : ys.Perm xs) {x : α} (hx : x ∈ xs)
    (hsame : ∀ y ∈ xs, y ≠ x → next' y = next y) : next' x = next x := by
  have htargets := (h.targets_perm h' hperm).cons_inv
  have hnodup := h.nodup
  obtain ⟨front, back, rfl⟩ := List.append_of_mem hx
  have hmiddle : (x :: (front ++ back)).Nodup :=
    List.perm_middle.nodup_iff.mp hnodup
  have hothers : ∀ y ∈ front ++ back, next' y = next y := by
    intro y hy
    apply hsame y
    · exact List.perm_middle.mem_iff.mpr (List.mem_cons_of_mem x hy)
    · rintro rfl
      exact (List.nodup_cons.mp hmiddle).1 hy
  have hlinks := ((List.perm_middle.symm.map next').trans htargets).trans
    (List.perm_middle.map next)
  rw [List.map_cons, List.map_cons, List.map_congr_left hothers] at hlinks
  have hlink : [next' x].Perm [next x] :=
    (List.perm_append_right_iff ((front ++ back).map next)).mp hlinks
  exact List.singleton_perm_singleton.mp hlink

/-! ## Chains through a given set -/

/-- Following `next` from `start` ends at the null link and visits exactly the
nodes in `members`, each of them once. -/
def Collects (next : α → Option α) (start : Option α) (members : Set α) :
    Prop :=
  ∃ xs, Chain next start xs ∧ xs.Nodup ∧ ∀ x, x ∈ xs ↔ x ∈ members

theorem Collects.mem_iff_reaches {next : α → Option α} {start : Option α}
    {members : Set α} (h : Collects next start members) {x : α} :
    x ∈ members ↔ Reaches next start x := by
  obtain ⟨xs, hchain, -, hmem⟩ := h
  rw [← hmem, hchain.mem_iff_reaches]

theorem collects_none {next : α → Option α} {members : Set α}
    (h : ∀ x, x ∉ members) : Collects next none members :=
  ⟨[], rfl, List.nodup_nil, fun x => by simp [h x]⟩

/-- Only the links of the members matter. -/
theorem Collects.congr {next next' : α → Option α} {start : Option α}
    {members members' : Set α} (h : Collects next start members)
    (hsame : ∀ x ∈ members, next' x = next x)
    (hmembers : ∀ x, x ∈ members' ↔ x ∈ members) :
    Collects next' start members' := by
  obtain ⟨xs, hchain, hnodup, hmem⟩ := h
  refine ⟨xs, hchain.congr fun x hx => hsame x ((hmem x).mp hx), hnodup, ?_⟩
  intro x
  rw [hmem, hmembers]

/-- A node outside is pushed to the front. -/
theorem Collects.push {next next' : α → Option α} {start : Option α}
    {members members' : Set α} {x : α} (h : Collects next start members)
    (hx : x ∉ members) (hlink : next' x = start)
    (hsame : ∀ y ∈ members, next' y = next y)
    (hmembers : ∀ y, y ∈ members' ↔ y = x ∨ y ∈ members) :
    Collects next' (some x) members' := by
  obtain ⟨xs, hchain, hnodup, hmem⟩ := h
  refine ⟨x :: xs, hchain.push hlink fun y hy => hsame y ((hmem y).mp hy),
    List.nodup_cons.mpr ⟨fun hxs => hx ((hmem x).mp hxs), hnodup⟩, ?_⟩
  intro y
  rw [List.mem_cons, hmembers, hmem]

/-! ## Linking an array -/

/-- The element number `k` of an array of `n` elements. -/
def element (n k : ℕ) : Option (Fin n) :=
  if h : k < n then some ⟨k, h⟩ else none

/-- Where each element is linked to the one behind it, the elements form a chain
in their order. -/
theorem chain_finRange {n : ℕ} {next : Fin n → Option (Fin n)}
    (hnext : ∀ i : Fin n, next i = element n (i + 1)) :
    Chain next (element n 0) (List.finRange n) := by
  -- from any element on, by induction on the number of elements left
  suffices hrest : ∀ m k, k + m = n →
      Chain next (element n k) ((List.finRange n).drop k) from
    hrest n 0 (Nat.zero_add n)
  intro m
  induction m with
  | zero =>
      intro k hk
      have hlast : n ≤ k := by omega
      rw [List.drop_of_length_le (by rwa [List.length_finRange])]
      exact dif_neg (Nat.not_lt.mpr hlast)
  | succ m ih =>
      intro k hk
      have hlt : k < n := by omega
      rw [List.drop_eq_getElem_cons (by rwa [List.length_finRange])]
      constructor
      · simp [element, hlt]
      · rw [hnext, List.getElem_finRange]
        exact ih (k + 1) (by omega)

/-- A loop that sets one entry a turn has set the entries it came to. -/
theorem foldl_update {ι β : Type*} [DecidableEq ι] (f : ι → β → β)
    {turns : List ι} (hturns : turns.Nodup) (array : ι → β) :
    turns.foldl (fun array i => Function.update array i (f i (array i)))
        array =
      fun i => if i ∈ turns then f i (array i) else array i := by
  induction turns generalizing array with
  | nil => simp
  | cons i turns ih =>
      obtain ⟨hi, hrest⟩ := List.nodup_cons.mp hturns
      rw [List.foldl_cons, ih hrest]
      funext j
      by_cases hj : j = i
      · subst hj
        simp [hi]
      · simp [hj]

/-! ## Walking a chain step by step -/

/-- The cursor after `n` steps along the links. -/
def walk (next : α → Option α) (start : Option α) : ℕ → Option α
  | 0 => start
  | n + 1 => (walk next start n).bind next

theorem walk_succ (next : α → Option α) (start : Option α) (n : ℕ) :
    walk next start (n + 1) = (walk next start n).bind next := rfl

theorem walk_succ' (next : α → Option α) (start : Option α) (n : ℕ) :
    walk next start (n + 1) = walk next (start.bind next) n := by
  induction n with
  | zero => rfl
  | succ n ih => rw [walk_succ, ih, walk_succ]

@[simp] theorem walk_none (next : α → Option α) (n : ℕ) :
    walk next none n = none := by
  induction n with
  | zero => rfl
  | succ n ih => rw [walk_succ, ih, Option.bind_none]

/-- A walk stays on nodes that are reached. -/
theorem reaches_of_walk {next : α → Option α} {start : Option α} {n : ℕ}
    {x : α} (h : walk next start n = some x) : Reaches next start x := by
  induction n generalizing start with
  | zero => exact ⟨[], h⟩
  | succ n ih =>
      cases start with
      | none => simp at h
      | some y =>
          rw [walk_succ'] at h
          obtain ⟨nodes, hnodes⟩ := ih h
          exact ⟨y :: nodes, rfl, hnodes⟩

theorem exists_walk_of_reaches {next : α → Option α} {start : Option α}
    {x : α} (h : Reaches next start x) : ∃ n, walk next start n = some x := by
  obtain ⟨nodes, hnodes⟩ := h
  induction nodes generalizing start with
  | nil => exact ⟨0, hnodes⟩
  | cons y ys ih =>
      obtain ⟨rfl, hrest⟩ := hnodes
      obtain ⟨n, hn⟩ := ih hrest
      exact ⟨n + 1, (walk_succ' ..).trans hn⟩

/-- A walk that has come to the null link has traced a chain no longer than
the number of its steps. -/
theorem exists_chain_of_walk_eq_none {next : α → Option α}
    {start : Option α} {n : ℕ} (h : walk next start n = none) :
    ∃ xs, Chain next start xs ∧ xs.length ≤ n := by
  induction n generalizing start with
  | zero => exact ⟨[], h, Nat.le_refl 0⟩
  | succ n ih =>
      cases start with
      | none => exact ⟨[], rfl, Nat.zero_le _⟩
      | some x =>
          rw [walk_succ'] at h
          obtain ⟨xs, hxs, hlen⟩ := ih h
          exact ⟨x :: xs, ⟨rfl, hxs⟩, Nat.succ_le_succ hlen⟩

/-- Walking a chain visits its nodes in their order and stops behind them. -/
theorem Chain.walk_eq {next : α → Option α} {start : Option α} {xs : List α}
    (h : Chain next start xs) (n : ℕ) : walk next start n = xs[n]? := by
  induction xs generalizing start n with
  | nil =>
      obtain rfl : start = none := h
      simp
  | cons x xs ih =>
      obtain ⟨rfl, hrest⟩ := h
      cases n with
      | zero => rfl
      | succ n =>
          rw [walk_succ', List.getElem?_cons_succ]
          exact ih hrest n

/-- Walking as many steps as a chain has nodes comes to the null link. -/
theorem Chain.walk_eq_none {next : α → Option α} {start : Option α}
    {xs : List α} (h : Chain next start xs) {n : ℕ} (hn : xs.length ≤ n) :
    walk next start n = none := by
  rw [h.walk_eq, List.getElem?_eq_none hn]

end Linked

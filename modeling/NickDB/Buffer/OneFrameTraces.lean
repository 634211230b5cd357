import NickDB.Buffer.Lists
import NickDB.Buffer.OneFrame

/-!
# The manager is a machine with one frame

Clients that use only frames they were given cannot tell a manager with any
number of frames from the machine with a single frame: the machine can answer
every sequence of calls as the manager does, and the manager as the machine
does, breakdowns and endless loops included.  The free list beyond its first
entry only counts how many pages the first frame can still take, and each page
that is taken drops one frame from it.
-/

namespace NickDB

open Linked Runs BufferManager

variable {frames : ℕ}

/-- What the links from the frame `name` allow: to take any number of pages
where the frame leads to itself, or one for each frame of the chain behind
it. -/
inductive LinksAllow (link : Fin frames → Option (Fin frames))
    (name : Fin frames) : ℕ∞ → Prop
  | loop (hloop : link name = some name) : LinksAllow link name ⊤
  | chain {xs : List (Fin frames)} (hchain : Chain link (link name) xs)
      (hname : name ∉ xs) : LinksAllow link name xs.length

/-- The entry of a call of `buff_pin` in the lookup table. -/
def callerEntry (activation : ℕ) : TablePointer × TablePointer :=
  (.pageidxptr activation, .frameidxptr activation)

/-- The manager shows its clients the frame `name` as that of the machine. -/
structure SeenAs (name : Fin frames) (manager : BufferManager frames)
    (one : OneFrame) : Prop where
  store : manager.store = one.store
  bytes : manager.buffer name = one.bytes
  page : manager.index name = one.page
  state : manager.state name = one.state
  freelist : manager.freelist = some name
  writeback : manager.writeback = if one.listed then some name else none
  links : LinksAllow manager.link name one.moves
  waits : one.listed = true → one.moves = 0 ∨ one.moves = ⊤
  table : manager.lookupTable = one.callers.map callerEntry

variable {name : Fin frames} {manager : BufferManager frames} {one : OneFrame}
  {file : StoreFile}

/-! ## Links -/

theorem LinksAllow.eq_none {link : Fin frames → Option (Fin frames)}
    (h : LinksAllow link name 0) : link name = none := by
  generalize hmoves : (0 : ℕ∞) = moves at h
  cases h with
  | loop hloop => cases hmoves
  | @chain xs hchain hname =>
      have hnil : xs = [] := by
        rw [← List.length_eq_zero_iff]
        exact_mod_cast hmoves.symm
      subst hnil
      exact hchain

theorem natCast_succ_sub_one (n : ℕ) : ((n + 1 : ℕ) : ℕ∞) - 1 = n := by
  have hsub := ENat.natCast_sub (n + 1) 1
  rw [Nat.add_sub_cancel, Nat.cast_one] at hsub
  exact hsub.symm

/-- A frame that can take a page has a link, and taking it uses up a page. -/
theorem LinksAllow.take {link : Fin frames → Option (Fin frames)} {moves : ℕ∞}
    (h : LinksAllow link name moves) (hmoves : moves ≠ 0) :
    ∃ next, link name = some next ∧
      LinksAllow (Function.update link name (link next)) name (moves - 1) := by
  cases h with
  | loop hloop =>
      refine ⟨name, hloop, ?_⟩
      rw [Function.update_eq_self]
      exact .loop hloop
  | @chain xs hchain hname =>
      cases xs with
      | nil => exact absurd rfl hmoves
      | cons next xs =>
          obtain ⟨hnext, hrest⟩ := hchain
          refine ⟨next, hnext, ?_⟩
          rw [List.length_cons, natCast_succ_sub_one]
          refine .chain ?_ fun hmem => hname (List.mem_cons_of_mem next hmem)
          rw [Function.update_self]
          refine hrest.congr fun x hx => Function.update_of_ne ?_ ..
          rintro rfl
          exact hname (List.mem_cons_of_mem next hx)

/-- Behind the first frame of a new manager are all the others. -/
theorem linksAllow_buffCreate (store : Backing) (hframes : 0 < frames) :
    LinksAllow (buffCreate store hframes).link ⟨0, hframes⟩
      (frames - 1 : ℕ) := by
  have hchain := chain_buffCreate store hframes
  have hlength : (List.finRange frames).length = frames :=
    List.length_finRange
  cases hframe : List.finRange frames with
  | nil =>
      rw [hframe] at hlength
      exact absurd hlength hframes.ne
  | cons first xs =>
      rw [hframe] at hchain hlength
      obtain rfl : ⟨0, hframes⟩ = first := Option.some.inj hchain.1
      have hcount : frames - 1 = xs.length := by
        rw [List.length_cons] at hlength
        omega
      rw [hcount]
      exact .chain hchain.2 (List.nodup_cons.mp hchain.nodup).1

/-! ## The lookup table -/

theorem SeenAs.knows_iff (h : SeenAs name manager one) {activation : ℕ} :
    manager.Knows activation ↔ activation ∈ one.callers := by
  rw [Knows, tableLookup, h.table]
  induction one.callers with
  | nil => simp
  | cons caller callers ih =>
      by_cases heq : activation = caller
      · simp [callerEntry, heq]
      · have hne : (TablePointer.pageidxptr activation ==
            TablePointer.pageidxptr caller) = false := by
          simpa using heq
        rw [List.map_cons, callerEntry, List.lookup_cons, hne,
          List.mem_cons, or_iff_right heq]
        exact ih

theorem SeenAs.stackKeys (h : SeenAs name manager one) :
    StackKeys manager := by
  rw [StackKeys, tableLookup, h.table]
  induction one.callers with
  | nil => rfl
  | cons caller callers ih =>
      rw [List.map_cons, callerEntry, List.lookup_cons]
      exact ih

/-! ## One lemma for each call -/

/-- The first components are equal, and the others related. -/
def SameThen {α β γ : Type*} (R : β → γ → Prop) (r : α × β) (r' : α × γ) :
    Prop :=
  r.1 = r'.1 ∧ R r.2 r'.2

/-- The manager with its file, and the machine with the same file. -/
def Alike (name : Fin frames) (s : BufferManager frames × StoreFile)
    (t : OneFrame × StoreFile) : Prop :=
  SeenAs name s.1 t.1 ∧ s.2 = t.2

theorem SeenAs.fetched (h : SeenAs name manager one) (activation : ℕ)
    (bytes : Page) :
    SeenAs name ((manager.learn activation).setBuffer name bytes)
      (one.fetched activation bytes) where
  store := h.store
  bytes := by
    rw [buffer_setBuffer, Function.update_self]
    rfl
  page := h.page
  state := h.state
  freelist := h.freelist
  writeback := h.writeback
  links := h.links
  waits := h.waits
  table := congrArg (callerEntry activation :: ·) h.table

theorem SeenAs.taking (h : SeenAs name manager one) (index : PageIndex)
    {next : Fin frames}
    (hlinks : LinksAllow
      (Function.update manager.link name (manager.link next)) name
      (one.moves - 1)) :
    SeenAs name (manager.claim name index (manager.link next))
      (one.taking index) where
  store := h.store
  bytes := h.bytes
  page := by
    rw [index_claim, Function.update_self]
    rfl
  state := by
    rw [state_claim, Function.update_self]
    rfl
  freelist := h.freelist
  writeback := h.writeback
  links := by
    rw [link_claim]
    exact hlinks
  waits := by
    intro hlisted
    have hmoves : one.moves - 1 = 0 ∨ one.moves - 1 = ⊤ := by
      rcases h.waits hlisted with hnone | hany
      · exact Or.inl (by rw [hnone, zero_tsub])
      · exact Or.inr (by rw [hany, ENat.top_sub_one])
    exact hmoves
  table := h.table

theorem SeenAs.pin (h : SeenAs name manager one) (activation : ℕ)
    (file : StoreFile) (index : PageIndex) :
    Option.Rel (SameThen (SameThen (Alike name)))
      (buffPin activation manager file index)
      (one.pin name activation file index) := by
  unfold OneFrame.pin
  by_cases hindex : index = metadataIndex
  · rw [if_pos hindex, buffPin, if_pos hindex]
    exact .some ⟨rfl, rfl, h, rfl⟩
  rw [if_neg hindex]
  by_cases hknown : manager.Knows activation
  · rw [if_pos (h.knows_iff.mp hknown),
      buffPin_of_hit hindex h.freelist hknown]
    exact .some ⟨rfl, rfl, h, rfl⟩
  rw [if_neg (mt h.knows_iff.mpr hknown)]
  rcases hget : getPage (manager.buffer name) manager.store file index with
    ⟨status, bytes, file'⟩
  have hget' := hget
  rw [h.bytes, h.store] at hget'
  rw [buffPin_of_new hindex h.freelist hknown hget]
  simp only [hget']
  have hfetched := h.fetched activation bytes
  by_cases hstatus : status = .ok
  · rw [if_neg (not_not.mpr hstatus), if_neg (not_not.mpr hstatus)]
    by_cases hmoves : one.moves = 0
    · have hmoves' : (one.fetched activation bytes).moves = 0 := hmoves
      have hnull : manager.link name = none := by
        refine LinksAllow.eq_none ?_
        rw [← hmoves]
        exact h.links
      rw [if_pos hmoves', hnull]
      exact .none
    · have hmoves' : (one.fetched activation bytes).moves ≠ 0 := hmoves
      obtain ⟨next, hnext, hlinks⟩ := h.links.take hmoves
      rw [if_neg hmoves', hnext]
      exact .some ⟨rfl, rfl, hfetched.taking index hlinks, rfl⟩
  · rw [if_pos hstatus, if_pos hstatus]
    exact .some ⟨rfl, rfl, hfetched, rfl⟩

theorem SeenAs.alloc (h : SeenAs name manager one) (activation : ℕ)
    (file : StoreFile) (wanted : Bool) :
    Option.Rel (SameThen (SameThen (Alike name)))
      (buffAllocFrame activation manager file wanted)
      (one.alloc name activation file wanted) := by
  unfold OneFrame.alloc
  cases wanted with
  | false =>
      rw [if_pos rfl, buffAllocFrame, if_pos rfl]
      exact .some ⟨rfl, rfl, h, rfl⟩
  | true =>
      rw [if_neg (by decide)]
      rcases halloc : allocPage none manager.store file with
        ⟨status, page, file'⟩
      have halloc' := halloc
      rw [h.store] at halloc'
      simp only [halloc']
      by_cases hstatus : status = .ok
      · subst hstatus
        rw [if_neg (not_not.mpr rfl), buffAllocFrame_of_alloc halloc]
        have hpin := h.pin activation file' page
        revert hpin
        generalize buffPin activation manager file' page = result
        generalize one.pin name activation file' page = result'
        intro hpin
        cases hpin with
        | none => exact .none
        | some hsame =>
            obtain ⟨hstatus, hframe, hrest⟩ := hsame
            refine .some ⟨hstatus, ?_, hrest⟩
            simp only [hstatus, hframe]
      · rw [if_pos hstatus, buffAllocFrame_of_refused halloc hstatus]
        exact .some ⟨rfl, rfl, h, rfl⟩

theorem SeenAs.write (h : SeenAs name manager one) (bytes : Page) :
    SeenAs name (manager.setBuffer name bytes) { one with bytes := bytes } where
  store := h.store
  bytes := by rw [buffer_setBuffer, Function.update_self]
  page := h.page
  state := h.state
  freelist := h.freelist
  writeback := h.writeback
  links := h.links
  waits := h.waits
  table := h.table

theorem SeenAs.setState (h : SeenAs name manager one) (state : FrameState) :
    SeenAs name (manager.setState name state) { one with state := state } where
  store := h.store
  bytes := h.bytes
  page := by
    rw [index_setState]
    exact h.page
  state := by rw [state_setState, Function.update_self]
  freelist := h.freelist
  writeback := h.writeback
  links := by
    rw [link_setState]
    exact h.links
  waits := h.waits
  table := h.table

theorem SeenAs.mark (h : SeenAs name manager one) :
    SameThen (SeenAs name) (buffMarkPage manager name) one.mark := by
  have hstate : (manager.metaframes name).state = one.state := h.state
  unfold buffMarkPage OneFrame.mark
  rw [hstate]
  cases one.state with
  | pinned => exact ⟨rfl, h.setState .pinnedDirty⟩
  | unpinned => exact ⟨rfl, h⟩
  | pinnedDirty => exact ⟨rfl, h⟩
  | unpinnedDirty => exact ⟨rfl, h⟩

theorem SeenAs.released (h : SeenAs name manager one) :
    SeenAs name (manager.pushFree name) one.released where
  store := h.store
  bytes := h.bytes
  page := by
    rw [index_pushFree]
    exact h.page
  state := by
    rw [state_pushFree, Function.update_self]
    rfl
  freelist := rfl
  writeback := h.writeback
  -- the frame is pushed on a list that it is the head of
  links := by
    refine .loop ?_
    rw [link_pushFree, Function.update_self]
    exact h.freelist
  waits := fun _ => Or.inr rfl
  table := h.table

theorem SeenAs.waiting (h : SeenAs name manager one) :
    SeenAs name (manager.pushDirty name) one.waiting where
  store := h.store
  bytes := h.bytes
  page := by
    rw [index_pushDirty]
    exact h.page
  state := by
    rw [state_pushDirty, Function.update_self]
    rfl
  freelist := h.freelist
  writeback := rfl
  links := by
    have hwriteback := h.writeback
    rw [link_pushDirty, hwriteback]
    by_cases hlisted : one.listed
    · have hmoves : one.waiting.moves = ⊤ := if_pos hlisted
      rw [hmoves, if_pos hlisted]
      exact .loop (Function.update_self ..)
    · have hmoves : one.waiting.moves = ([] : List (Fin frames)).length :=
        if_neg hlisted
      rw [hmoves, if_neg hlisted]
      exact .chain (Function.update_self ..) List.not_mem_nil
  waits := by
    intro _
    by_cases hlisted : one.listed
    · exact Or.inr (if_pos hlisted)
    · exact Or.inl (if_neg hlisted)
  table := h.table

theorem SeenAs.tableRemove (h : SeenAs name manager one) :
    tableRemove manager.lookupTable .heap =
      some (false, manager.lookupTable) :=
  tableRemove_of_stackKeys h.stackKeys

theorem SeenAs.unpin (h : SeenAs name manager one) :
    Option.Rel (SameThen (SeenAs name)) (buffUnpin manager name)
      (some one.unpin) := by
  have hdirty := h.waiting
  have hclean := h.released
  unfold OneFrame.unpin
  cases hstate : one.state with
  | pinned =>
      rw [buffUnpin_of_clean (h.state.trans hstate), h.tableRemove]
      exact .some ⟨rfl, hclean⟩
  | unpinned =>
      rw [buffUnpin_of_not_pinned (by rw [h.state, hstate]; decide)]
      exact .some ⟨rfl, h⟩
  | pinnedDirty =>
      rw [buffUnpin_of_dirty (h.state.trans hstate), h.tableRemove]
      exact .some ⟨rfl, hdirty⟩
  | unpinnedDirty =>
      rw [buffUnpin_of_not_pinned (by rw [h.state, hstate]; decide)]
      exact .some ⟨rfl, h⟩

theorem SeenAs.free (h : SeenAs name manager one) (file : StoreFile) :
    Option.Rel (SameThen (Alike name))
      (buffFreeFrame manager file (some name)) (some (one.free file)) := by
  rcases hfree : freePage manager.store file (manager.index name) with
    ⟨status, file'⟩
  rw [buffFreeFrame_of_remove hfree h.tableRemove]
  rw [h.store, h.page] at hfree
  rw [OneFrame.free, hfree]
  exact .some ⟨rfl, h.released, rfl⟩

/-- A flush of a list with one frame. -/
theorem buffFlushAll_of_single {f : Fin frames}
    (hwriteback : manager.writeback = some f) (hlink : manager.link f = none) :
    buffFlushAll manager file =
      let put := putPage (manager.buffer f) manager.store file
        (manager.index f)
      some (.ok,
        if put.1 = .ok then manager.setState f .unpinned else manager,
        put.2) := by
  have hturn : (writebackAfter manager file 0).metaframe = some f := hwriteback
  have hend : (writebackAfter manager file 1).metaframe = none := by
    rw [metaframe_writebackAfter, walk_succ', hwriteback]
    exact hlink
  have hframes : 1 ≤ frames := Nat.one_le_of_lt f.isLt
  have hchain : Chain manager.link manager.writeback [f] :=
    ⟨hwriteback, hlink⟩
  have hlast : writebackAfter manager file frames =
      (writebackAfter manager file 0).next := by
    rw [writebackAfter_of_le manager file hframes hend, writebackAfter_succ]
  have hloop := (writebackLoop_eq_some_iff manager file).mpr
    ⟨⟨[f], hchain⟩, rfl, rfl⟩
  rw [buffFlushAll, hloop, hlast, Cursor.next_of_some hturn]
  rfl

/-- A flush of a frame that leads to itself does not return. -/
theorem buffFlushAll_of_loop {f : Fin frames}
    (hwriteback : manager.writeback = some f)
    (hlink : manager.link f = some f) : buffFlushAll manager file = none := by
  rw [buffFlushAll, Option.map_eq_none_iff, Option.eq_none_iff_forall_ne_some]
  intro result hloop
  obtain ⟨⟨xs, hchain⟩, -⟩ :=
    (writebackLoop_eq_some_iff manager file).mp hloop
  rw [hwriteback] at hchain
  have hcycle : Path manager.link (some f) [f] (some f) := ⟨rfl, hlink⟩
  exact not_chain_of_cycle hcycle hchain

theorem LinksAllow.eq_self {link : Fin frames → Option (Fin frames)}
    (h : LinksAllow link name ⊤) : link name = some name := by
  generalize hmoves : (⊤ : ℕ∞) = moves at h
  cases h with
  | loop hloop => exact hloop
  | chain hchain hname => cases hmoves

theorem SeenAs.flush (h : SeenAs name manager one) (file : StoreFile) :
    Option.Rel (SameThen (Alike name)) (buffFlushAll manager file)
      ((one.flush file).map fun result => (.ok, result)) := by
  have hwriteback := h.writeback
  unfold OneFrame.flush
  by_cases hlisted : one.listed = true
  · rw [if_pos hlisted] at hwriteback
    rw [if_neg (by simp [hlisted])]
    rcases h.waits hlisted with hmoves | hmoves
    · have hlink : manager.link name = none := by
        refine LinksAllow.eq_none ?_
        rw [← hmoves]
        exact h.links
      rw [if_pos hmoves, buffFlushAll_of_single hwriteback hlink, h.bytes,
        h.store, h.page]
      rcases putPage one.bytes one.store file one.page with ⟨status, file'⟩
      refine .some ⟨rfl, ?_, rfl⟩
      by_cases hput : status = .ok
      · simp only [if_pos hput]
        exact h.setState .unpinned
      · simp only [if_neg hput]
        exact h
    · have hlink : manager.link name = some name := by
        refine LinksAllow.eq_self ?_
        rw [← hmoves]
        exact h.links
      rw [if_neg (by simp [hmoves]), buffFlushAll_of_loop hwriteback hlink]
      exact .none
  · rw [if_neg hlisted] at hwriteback
    rw [if_pos (by simpa using hlisted), buffFlushAll_of_empty file hwriteback]
    exact .some ⟨rfl, h, rfl⟩

/-! ## Traces -/

/-- The frame that a call is given. -/
def BufferEvent.uses : BufferEvent frames → Option (Fin frames)
  | .write frame _ => some frame
  | .mark frame _ => some frame
  | .unpin frame _ => some frame
  | .freeFrame frame _ => frame
  | _ => none

/-- The frame that a call returns. -/
def BufferEvent.returns : BufferEvent frames → Option (Fin frames)
  | .pin _ _ _ frame => frame
  | .allocFrame _ _ _ pair => pair.map Prod.fst
  | _ => none

/-- Clients use no frame but those that earlier calls have returned. -/
def UsesReturned (events : List (BufferEvent frames)) : Prop :=
  ∀ front event back, events = front ++ event :: back →
    ∀ f ∈ event.uses, ∃ earlier ∈ front, f ∈ earlier.returns

/-- The first call returns the only frame that is used. -/
theorem usesReturned_cons {first : BufferEvent frames}
    {events : List (BufferEvent frames)} {f : Fin frames}
    (hfirst : first.uses = none) (hreturns : first.returns = some f)
    (hevents : ∀ event ∈ events, ∀ g ∈ event.uses, g = f) :
    UsesReturned (first :: events) := by
  intro front event back heq g hg
  cases front with
  | nil =>
      obtain ⟨rfl, -⟩ := List.cons_eq_cons.mp heq
      rw [hfirst] at hg
      cases hg
  | cons head front =>
      obtain ⟨rfl, rfl⟩ := List.cons_eq_cons.mp heq
      have hmem : event ∈ front ++ event :: back := by simp
      obtain rfl := hevents event hmem g hg
      exact ⟨first, List.mem_cons_self, hreturns⟩

section Answers

variable {α β γ : Type*} {R : β → γ → Prop} {x : Option (α × β)}
  {y : Option (α × γ)}

/-- The other call gives the same answer. -/
theorem exists_answer (h : Option.Rel (SameThen R) x y) {a : α} {b : β}
    (hx : x = some (a, b)) : ∃ c, y = some (a, c) ∧ R b c := by
  cases h with
  | none => cases hx
  | @some _ result hsame =>
      obtain rfl := Option.some.inj hx
      obtain ⟨rfl, hrest⟩ : a = result.1 ∧ R b result.2 := hsame
      exact ⟨result.2, rfl, hrest⟩

theorem exists_answer_back (h : Option.Rel (SameThen R) x y) {a : α} {c : γ}
    (hy : y = some (a, c)) : ∃ b, x = some (a, b) ∧ R b c := by
  cases h with
  | none => cases hy
  | @some result _ hsame =>
      obtain rfl := Option.some.inj hy
      obtain ⟨rfl, hrest⟩ : result.1 = a ∧ R result.2 c := hsame
      exact ⟨result.2, rfl, hrest⟩

end Answers

variable {s t : World frames} {u v : OneFrame × StoreFile}
  {event : BufferEvent frames}

/-- The machine answers a call as the manager does. -/
theorem Alike.step (h : Alike name (s.manager, s.file) u)
    (huses : ∀ f ∈ event.uses, f = name) (hcall : bufferStep s event t) :
    ∃ v, OneFrame.step name u event v ∧ Alike name (t.manager, t.file) v := by
  obtain ⟨manager, file⟩ := s
  obtain ⟨manager', file'⟩ := t
  obtain ⟨one, file₁⟩ := u
  obtain ⟨h, hfile⟩ := h
  obtain rfl : file = file₁ := hfile
  cases event with
  | pin activation index status frame =>
      obtain ⟨⟨frame', v⟩, hpin, hframe, hv⟩ :=
        exists_answer (SeenAs.pin h activation file index) hcall
      obtain rfl : frame = frame' := hframe
      exact ⟨v, hpin, hv⟩
  | allocFrame activation wanted status pair =>
      obtain ⟨⟨pair', v⟩, halloc, hpair, hv⟩ :=
        exists_answer (SeenAs.alloc h activation file wanted) hcall
      obtain rfl : pair = pair' := hpair
      exact ⟨v, halloc, hv⟩
  | write frame bytes =>
      obtain rfl : frame = name := huses frame rfl
      obtain ⟨hwrite, hfile⟩ := hcall
      obtain rfl : manager' = manager.setBuffer frame bytes := hwrite
      obtain rfl : file' = file := hfile
      exact ⟨_, ⟨rfl, rfl⟩, SeenAs.write h bytes, rfl⟩
  | mark frame status =>
      obtain rfl : frame = name := huses frame rfl
      obtain ⟨hmark, hfile⟩ := hcall
      obtain rfl : file' = file := hfile
      obtain ⟨one', hone, hseen⟩ :=
        exists_answer (.some (SeenAs.mark h)) (congrArg some hmark)
      exact ⟨(one', file'), ⟨rfl, Option.some.inj hone, rfl⟩, hseen, rfl⟩
  | unpin frame status =>
      obtain rfl : frame = name := huses frame rfl
      obtain ⟨hunpin, hfile⟩ := hcall
      obtain rfl : file' = file := hfile
      obtain ⟨one', hone, hseen⟩ := exists_answer (SeenAs.unpin h) hunpin
      exact ⟨(one', file'), ⟨rfl, Option.some.inj hone, rfl⟩, hseen, rfl⟩
  | freeFrame frame status =>
      cases frame with
      | none =>
          have hfree : buffFreeFrame manager file none = _ := hcall
          cases hfree
          exact ⟨_, ⟨rfl, rfl⟩, h, rfl⟩
      | some frame =>
          obtain rfl : frame = name := huses frame rfl
          obtain ⟨v, hone, hv⟩ := exists_answer (SeenAs.free h file) hcall
          exact ⟨v, ⟨rfl, Option.some.inj hone⟩, hv⟩
  | flushAll status =>
      obtain ⟨v, hresult, hv⟩ := exists_answer (SeenAs.flush h file) hcall
      obtain ⟨v', hflush, heq⟩ := Option.map_eq_some_iff.mp hresult
      obtain ⟨rfl, rfl⟩ := Prod.mk.inj heq
      exact ⟨v', ⟨rfl, hflush⟩, hv⟩

/-- The manager answers a call as the machine does. -/
theorem Alike.step_back (h : Alike name (s.manager, s.file) u)
    (hcall : OneFrame.step name u event v) :
    ∃ t : World frames, bufferStep s event t ∧
      Alike name (t.manager, t.file) v := by
  obtain ⟨manager, file⟩ := s
  obtain ⟨one, file₁⟩ := u
  obtain ⟨h, hfile⟩ := h
  obtain rfl : file = file₁ := hfile
  cases event with
  | pin activation index status frame =>
      obtain ⟨⟨frame', manager', file'⟩, hpin, hframe, hv⟩ :=
        exists_answer_back (SeenAs.pin h activation file index) hcall
      obtain rfl : frame' = frame := hframe
      exact ⟨⟨manager', file'⟩, hpin, hv⟩
  | allocFrame activation wanted status pair =>
      obtain ⟨⟨pair', manager', file'⟩, halloc, hpair, hv⟩ :=
        exists_answer_back (SeenAs.alloc h activation file wanted) hcall
      obtain rfl : pair' = pair := hpair
      exact ⟨⟨manager', file'⟩, halloc, hv⟩
  | write frame bytes =>
      obtain ⟨rfl, rfl⟩ := hcall
      exact ⟨⟨manager.setBuffer frame bytes, file⟩, ⟨rfl, rfl⟩,
        SeenAs.write h bytes, rfl⟩
  | mark frame status =>
      obtain ⟨rfl, hmark, hfile⟩ := hcall
      obtain ⟨manager', hmanager, hseen⟩ :=
        exists_answer_back (.some (SeenAs.mark h)) (congrArg some hmark)
      exact ⟨⟨manager', file⟩, ⟨Option.some.inj hmanager, rfl⟩, hseen,
        hfile.symm⟩
  | unpin frame status =>
      obtain ⟨rfl, hunpin, hfile⟩ := hcall
      obtain ⟨manager', hmanager, hseen⟩ :=
        exists_answer_back (SeenAs.unpin h) (congrArg some hunpin)
      exact ⟨⟨manager', file⟩, ⟨hmanager, rfl⟩, hseen, hfile.symm⟩
  | freeFrame frame status =>
      cases frame with
      | none =>
          obtain ⟨rfl, rfl⟩ := hcall
          exact ⟨⟨manager, file⟩, rfl, h, rfl⟩
      | some frame =>
          obtain ⟨rfl, hfree⟩ := hcall
          obtain ⟨⟨manager', file'⟩, hmanager, hv⟩ :=
            exists_answer_back (SeenAs.free h file) (congrArg some hfree)
          exact ⟨⟨manager', file'⟩, hmanager, hv⟩
  | flushAll status =>
      obtain ⟨rfl, hflush⟩ := hcall
      obtain ⟨⟨manager', file'⟩, hmanager, hv⟩ :=
        exists_answer_back (SeenAs.flush h file)
          (Option.map_eq_some_iff.mpr ⟨v, hflush, rfl⟩)
      exact ⟨⟨manager', file'⟩, hmanager, hv⟩

theorem OneFrame.eq_name_of_alloc {activation : ℕ} {wanted : Bool}
    {status : Status} {pair : Option (Fin frames × PageIndex)}
    (hcall : one.alloc name activation file wanted =
      some (status, pair, v)) : ∀ f ∈ pair.map Prod.fst, f = name := by
  intro f hf
  unfold OneFrame.alloc at hcall
  simp only [] at hcall
  split at hcall
  next => cases hcall; cases hf
  next =>
    split at hcall
    next => cases hcall; cases hf
    next =>
      obtain ⟨⟨status', frame, v'⟩, hpin, hresult⟩ :=
        Option.map_eq_some_iff.mp hcall
      cases hresult
      obtain ⟨⟨g, page⟩, hpair, rfl⟩ := Option.map_eq_some_iff.mp hf
      simp only [] at hpair
      split at hpair
      next =>
        obtain ⟨g', hg, heq⟩ := Option.map_eq_some_iff.mp hpair
        cases heq
        exact (pin_cases hpin).1 g hg
      next => cases hpair

/-- The machine returns its frame only. -/
theorem OneFrame.eq_name_of_step (hcall : OneFrame.step name u event v) :
    ∀ f ∈ event.returns, f = name := by
  intro f hf
  cases event with
  | pin activation index status frame => exact (pin_cases hcall).1 f hf
  | allocFrame activation wanted status pair =>
      exact eq_name_of_alloc hcall f hf
  | write frame bytes => cases hf
  | mark frame status => cases hf
  | unpin frame status => cases hf
  | freeFrame frame status => cases hf
  | flushAll status => cases hf

theorem alike_initial (store : Backing) (hframes : 0 < frames)
    (file : StoreFile) :
    Alike ⟨0, hframes⟩
      ((startWorld store hframes file).manager,
        (startWorld store hframes file).file)
      (OneFrame.initial store frames, file) := by
  refine ⟨⟨rfl, rfl, index_buffCreate .., state_buffCreate .., rfl, rfl,
    linksAllow_buffCreate store hframes, ?_, rfl⟩, rfl⟩
  intro hlisted
  cases hlisted

section Runs

variable {store : Backing} {hframes : 0 < frames}
  {events : List (BufferEvent frames)}

/-- What clients see of a run of the manager is a run of the machine. -/
theorem exists_one_frame_run (huses : UsesReturned events)
    (hrun : Run bufferStep (startWorld store hframes file) events t) :
    ∃ u, Run (OneFrame.step ⟨0, hframes⟩)
        (OneFrame.initial store frames, file) events u ∧
      Alike ⟨0, hframes⟩ (t.manager, t.file) u := by
  have hsim : ∀ (s : World frames) (u : OneFrame × StoreFile)
      (event : BufferEvent frames) (t : World frames),
      Alike ⟨0, hframes⟩ (s.manager, s.file) u →
      (∀ f ∈ event.uses, f = ⟨0, hframes⟩) → bufferStep s event t →
      ∃ v, OneFrame.step ⟨0, hframes⟩ u event v ∧
        Alike ⟨0, hframes⟩ (t.manager, t.file) v :=
    fun s u event t h hname hcall => Alike.step h hname hcall
  -- what earlier calls have returned is the frame of the machine
  have hadm : Admissible (OneFrame.step ⟨0, hframes⟩)
      (fun _ event => ∀ f ∈ event.uses, f = ⟨0, hframes⟩)
      (OneFrame.initial store frames, file) events := by
    intro front event back u hevents hfront f hf
    obtain ⟨earlier, hearlier, hreturns⟩ :=
      huses front event back hevents f hf
    exact hfront.forall_mem
      (P := fun event => ∀ f ∈ event.returns, f = ⟨0, hframes⟩)
      (fun _ _ _ hcall => OneFrame.eq_name_of_step hcall)
      earlier hearlier f hreturns
  exact hrun.simulate hsim (alike_initial store hframes file) hadm

/-- The manager can follow every run of the machine. -/
theorem exists_manager_run
    (hrun : Run (OneFrame.step ⟨0, hframes⟩)
      (OneFrame.initial store frames, file) events u) :
    ∃ t, Run bufferStep (startWorld store hframes file) events t ∧
      Alike ⟨0, hframes⟩ (t.manager, t.file) u := by
  have hsim : ∀ (u : OneFrame × StoreFile) (s : World frames)
      (event : BufferEvent frames) (v : OneFrame × StoreFile),
      Alike ⟨0, hframes⟩ (s.manager, s.file) u → True →
      OneFrame.step ⟨0, hframes⟩ u event v →
      ∃ t, bufferStep s event t ∧ Alike ⟨0, hframes⟩ (t.manager, t.file) v :=
    fun u s event v h _ hcall => Alike.step_back h hcall
  have hadm : Admissible bufferStep (fun _ _ => True)
      (startWorld store hframes file) events :=
    fun _ _ _ _ _ _ => trivial
  exact hrun.simulate hsim (alike_initial store hframes file) hadm

end Runs

/-- Where clients use only frames that they were given, the runs of a manager
with any number of frames, over any file, are those of the machine with one
frame, call by call with all results. -/
theorem manager_runs_as_one_frame {store : Backing} {hframes : 0 < frames}
    {file : StoreFile} {events : List (BufferEvent frames)} :
    (UsesReturned events → ∀ t,
      Run bufferStep (startWorld store hframes file) events t →
      ∃ u, Run (OneFrame.step ⟨0, hframes⟩)
          (OneFrame.initial store frames, file) events u ∧
        Alike ⟨0, hframes⟩ (t.manager, t.file) u) ∧
    (∀ u, Run (OneFrame.step ⟨0, hframes⟩)
        (OneFrame.initial store frames, file) events u →
      ∃ t, Run bufferStep (startWorld store hframes file) events t ∧
        Alike ⟨0, hframes⟩ (t.manager, t.file) u) :=
  ⟨fun huses _ hrun => exists_one_frame_run huses hrun,
    fun _ hrun => exists_manager_run hrun⟩

/-- A page is pinned, marked and unpinned. -/
theorem manager_runs_as_one_frame_sample : ∃ t u,
    Run bufferStep smallWorld
      [.pin 0 1 .ok (some 0), .mark 0 .ok, .unpin 0 .ok] t ∧
    Run (OneFrame.step (0 : Fin 2))
      (OneFrame.initial ⟨3⟩ 2, reliable (blankStore 2))
      [.pin 0 1 .ok (some 0), .mark 0 .ok, .unpin 0 .ok] u ∧
    Alike 0 (t.manager, t.file) u := by
  have hrun : Run bufferStep smallWorld
      [.pin 0 1 .ok (some 0), .mark 0 .ok, .unpin 0 .ok] listedWorld :=
    .cons (smallWorld_pin (Nat.le_refl 1) (by decide))
      (.cons pinnedWorld_mark (.cons markedWorld_unpin (.nil _)))
  have huses : UsesReturned
      [.pin 0 1 .ok (some (0 : Fin 2)), .mark 0 .ok, .unpin 0 .ok] :=
    usesReturned_cons rfl rfl (by simp [BufferEvent.uses])
  obtain ⟨u, hmachine, halike⟩ :=
    manager_runs_as_one_frame.1 huses listedWorld hrun
  exact ⟨listedWorld, u, hrun, hmachine, halike⟩

end NickDB

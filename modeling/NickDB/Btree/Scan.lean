import NickDB.Btree.Separators

/-!
# The scan of the separators

`btree_insert_sep_value` looks for the end of the separators of a directory
node, which a separator of zeros marks, pair by pair from the end of the node
downwards.  Its loop compares with the address of the zeros in place of the
zeros, and it counts only in the branch for odd counts, so that it never counts
at all.  This module states what the loop compares, exactly when it is the scan
that is meant, and when its first comparison and the test of `btree_insert`
agree on whether there is a separator at all: on pairs that are blank or whole.
-/

namespace NickDB

open Loops

/-! ## What is meant -/

/-- All bytes of the separator that starts at `place` are zero. -/
def SlotEmpty (config : BtreeConfig) (node : Page) (place : UInt64) : Prop :=
  nodeBytes node place config.keySize =
    some (List.replicate config.keySize.toNat 0)

instance (config : BtreeConfig) (node : Page) (place : UInt64) :
    Decidable (SlotEmpty config node place) :=
  inferInstanceAs (Decidable (_ = _))

/-- The places of a pair, the left one first. -/
def pairSlots (config : BtreeConfig) (index : ℕ) : List UInt64 :=
  [btreeGetSep config (.ofNat index),
    btreeGetSep config (.ofNat index) + rightSep config.keySize]

/-- The places of all pairs that fit into a node, in the order of the scan. -/
def sepSlots (config : BtreeConfig) : List UInt64 :=
  (List.range (endOfPage.toNat / (2 * config.keySize.toNat))).flatMap
    (pairSlots config)

/-- The places up to the first separator of zeros. -/
def untilEmpty (config : BtreeConfig) (node : Page) :
    List UInt64 → List UInt64
  | [] => []
  | place :: places =>
      if SlotEmpty config node place then [place]
      else place :: untilEmpty config node places

/-- From `cursor` on the loop compares the places `places`, and ends. -/
def Compares (blank : UInt64) (config : BtreeConfig) (node : Page)
    (sep : List UInt8) (cursor : SepCursor) (places : List UInt64) : Prop :=
  ∃ tested last, Ends (sepTest blank config node) (sepTurn config node sep)
    cursor tested last ∧ tested.map SepCursor.sepStart = places

/-- The loop ends, has stayed inside the node, and has compared the separators
from the first on, up to one of zeros or to the last that fits. -/
def ScansInOrder (blank : UInt64) (config : BtreeConfig) (node : Page)
    (sep : List UInt8) : Prop :=
  ∃ places, Compares blank config node sep (.first config) places ∧
    (∀ place ∈ places,
      place.toNat + config.keySize.toNat ≤ endOfPage.toNat) ∧
    places = untilEmpty config node (sepSlots config)

/-- The bytes of the variable `blank` that are compared are there, and zero. -/
def BlankZero (blank : UInt64) (config : BtreeConfig) : Prop :=
  blankBytes blank config.keySize =
    some (List.replicate config.keySize.toNat 0)

instance (blank : UInt64) (config : BtreeConfig) :
    Decidable (BlankZero blank config) :=
  inferInstanceAs (Decidable (_ = _))

variable {blank : UInt64} {config : BtreeConfig} {node : Page}
  {sep bytes : List UInt8} {place : UInt64} {places : List UInt64}

/-! ## Bytes that are compared -/

theorem nodeBytes_of_fits {length : UInt64}
    (h : place.toNat + length.toNat ≤ endOfPage.toNat) :
    ∃ bytes, nodeBytes node place length = some bytes := by
  have hend : endOfPage.toNat = 4092 := rfl
  have hfits : 4 + place.toNat + length.toNat ≤ pageSize := by
    simp only [pageSize]
    omega
  exact ⟨_, dif_pos hfits⟩

theorem length_nodeBytes {length : UInt64}
    (h : nodeBytes node place length = some bytes) :
    bytes.length = length.toNat := by
  unfold nodeBytes at h
  split at h
  next => rw [← Option.some.inj h, List.length_ofFn]
  next => cases h

/-- Both separators of the first pair can be read. -/
theorem exists_first_pair (config : BtreeConfig) (node : Page)
    (hfits : 2 * config.keySize.toNat ≤ endOfPage.toNat) :
    ∃ left right,
      nodeBytes node (btreeGetSep config 0) config.keySize = some left ∧
      nodeBytes node (btreeGetSep config 0 + rightSep config.keySize)
        config.keySize = some right := by
  have hleftPlace := toNat_btreeGetSep hfits
  have hrightPlace := toNat_btreeGetSep_right hfits
  obtain ⟨left, hleft⟩ := @nodeBytes_of_fits node (btreeGetSep config 0)
    config.keySize (by omega)
  obtain ⟨right, hright⟩ := @nodeBytes_of_fits node
    (btreeGetSep config 0 + rightSep config.keySize) config.keySize (by omega)
  exact ⟨left, right, hleft, hright⟩

/-- No byte can be read past the end of the node. -/
theorem nodeBytes_eq_none {length : UInt64}
    (h : endOfPage.toNat < place.toNat + length.toNat) :
    nodeBytes node place length = none := by
  have hend : endOfPage.toNat = 4092 := rfl
  apply dif_neg
  simp only [pageSize]
  omega

theorem compareBytes_eq_iff {first second : List UInt8}
    (h : first.length = second.length) :
    compareBytes first second = .eq ↔ first = second := by
  induction first generalizing second with
  | nil =>
      rw [List.length_eq_zero_iff.mp h.symm]
      exact iff_of_true rfl rfl
  | cons x first ih =>
      cases second with
      | nil => cases h
      | cons y second =>
          rw [compareBytes, List.cons.injEq]
          by_cases hlt : x < y
          · rw [if_pos hlt]
            exact iff_of_false (by decide) fun h => UInt8.ne_of_lt hlt h.1
          by_cases hgt : y < x
          · rw [if_neg hlt, if_pos hgt]
            exact iff_of_false (by decide) fun h =>
              UInt8.ne_of_lt hgt h.1.symm
          · have hsame : x = y :=
              UInt8.le_antisymm (UInt8.not_lt.mp hgt) (UInt8.not_lt.mp hlt)
            rw [if_neg hlt, if_neg hgt, and_iff_right hsame]
            exact ih (Nat.succ.inj h)

theorem length_blankBytes {length : UInt64}
    (h : blankBytes blank length = some bytes) :
    bytes.length = length.toNat := by
  unfold blankBytes at h
  split at h
  next =>
    rw [← Option.some.inj h, List.length_map, List.length_range]
  next => cases h

/-! ## The test and the body of the loop -/

theorem sepTest_none_left {cursor : SepCursor}
    (h : blankBytes blank config.keySize = none) :
    sepTest blank config node cursor = none := by
  rw [sepTest, h]
  rfl

theorem sepTest_none_right {cursor : SepCursor}
    (h : nodeBytes node cursor.sepStart config.keySize = none) :
    sepTest blank config node cursor = none := by
  rw [sepTest, h]
  cases blankBytes blank config.keySize with
  | none => rfl
  | some first => rfl

/-- The loop goes on while the separator differs from the bytes of `blank`. -/
theorem sepTest_some {cursor : SepCursor} {second : List UInt8}
    (hblank : blankBytes blank config.keySize = some bytes)
    (hnode : nodeBytes node cursor.sepStart config.keySize = some second) :
    sepTest blank config node cursor = some (decide (bytes ≠ second)) := by
  have heq := compareBytes_eq_iff
    ((length_blankBytes hblank).trans (length_nodeBytes hnode).symm)
  rw [sepTest, hblank, hnode]
  simp only [memcmp, ne_eq, heq]

@[simp] theorem SepCursor.flag_index (cursor : SepCursor) (order : Ordering) :
    (cursor.flag order).index = cursor.index := by
  cases order with
  | lt => rfl
  | eq => rfl
  | gt => rfl

@[simp] theorem SepCursor.flag_sepStart (cursor : SepCursor)
    (order : Ordering) : (cursor.flag order).sepStart = cursor.sepStart := by
  cases order with
  | lt => rfl
  | eq => rfl
  | gt => rfl

/-- In the branch for left separators the loop moves on to the right one, and
does not count. -/
theorem sepTurn_left {cursor : SepCursor}
    (hsep : sep.length = config.keySize.toNat)
    (hindex : cursor.index % 2 = 0)
    (hnode : nodeBytes node cursor.sepStart config.keySize = some bytes) :
    ∃ next, sepTurn config node sep cursor = some next ∧
      next.index = cursor.index ∧
      next.sepStart = cursor.sepStart + rightSep config.keySize := by
  have hbytes : sepBytes sep config.keySize =
      some (sep.take config.keySize.toNat) := if_pos hsep.ge
  rw [sepTurn, hbytes, hnode]
  refine ⟨_, rfl, ?_⟩
  rw [SepCursor.moveOn, SepCursor.flag_index, if_pos hindex]
  simp

/-! ## What the loop compares -/

theorem compares_of_none {cursor : SepCursor}
    (h : sepTest blank config node cursor = none) :
    ¬Compares blank config node sep cursor places := by
  rintro ⟨tested, last, hends, -⟩
  exact not_ends_of_none h hends

/-- The loop ends at a separator that agrees with the bytes of `blank`. -/
theorem compares_stop {cursor : SepCursor}
    (hblank : blankBytes blank config.keySize = some bytes)
    (hnode : nodeBytes node cursor.sepStart config.keySize = some bytes) :
    Compares blank config node sep cursor places ↔
      places = [cursor.sepStart] := by
  have htest := sepTest_some hblank hnode
  rw [decide_eq_false (not_not.mpr rfl)] at htest
  constructor
  · rintro ⟨tested, last, hends, rfl⟩
    rw [((ends_of_false htest).mp hends).1]
    rfl
  · rintro rfl
    exact ⟨_, _, (ends_of_false htest).mpr ⟨rfl, rfl⟩, rfl⟩

/-- From any other left separator the loop goes on with the right one. -/
theorem compares_left {cursor : SepCursor} {second : List UInt8}
    (hsep : sep.length = config.keySize.toNat)
    (hblank : blankBytes blank config.keySize = some bytes)
    (hindex : cursor.index % 2 = 0)
    (hnode : nodeBytes node cursor.sepStart config.keySize = some second)
    (hne : bytes ≠ second) :
    ∃ next : SepCursor, next.index = cursor.index ∧
      next.sepStart = cursor.sepStart + rightSep config.keySize ∧
      ∀ places, Compares blank config node sep cursor places ↔
        ∃ rest, places = cursor.sepStart :: rest ∧
          Compares blank config node sep next rest := by
  have htest := sepTest_some hblank hnode
  rw [decide_eq_true hne] at htest
  obtain ⟨next, hturn, hcount, hplace⟩ := sepTurn_left hsep hindex hnode
  refine ⟨next, hcount, hplace, fun places => ?_⟩
  constructor
  · rintro ⟨tested, last, hends, rfl⟩
    obtain ⟨rest, rfl, hrest⟩ := (ends_of_true htest hturn).mp hends
    exact ⟨_, rfl, rest, last, hrest, rfl⟩
  · rintro ⟨_, rfl, rest, last, hrest, rfl⟩
    exact ⟨_, last, (ends_of_true htest hturn).mpr ⟨rest, rfl, hrest⟩, rfl⟩

/-- Behind the right separator of the first pair the node ends. -/
theorem nodeBytes_past_pair (hkey : 1 ≤ config.keySize)
    (hfits : 2 * config.keySize.toNat ≤ endOfPage.toNat) :
    nodeBytes node (btreeGetSep config 0 + rightSep config.keySize +
      rightSep config.keySize) config.keySize = none := by
  have hend : endOfPage.toNat = 4092 := rfl
  have hpos : 1 ≤ config.keySize.toNat := hkey
  have hplace : (btreeGetSep config 0 + rightSep config.keySize +
      rightSep config.keySize).toNat = endOfPage.toNat := by
    rw [UInt64.toNat_add, toNat_btreeGetSep_right hfits, rightSep,
      Nat.mod_eq_of_lt (by omega)]
    omega
  apply nodeBytes_eq_none
  omega

/-- `btree_insert_sep_value` returns exactly if its loop ends. -/
theorem returns_iff_compares :
    (∃ turns status, btreeInsertSepValue turns blank config (some node)
      (some sep) = some status) ↔
      ∃ places, Compares blank config node sep (.first config) places := by
  constructor
  · rintro ⟨turns, status, h⟩
    simp only [btreeInsertSepValue] at h
    split at h
    next => cases h
    next result hresult => exact ⟨_, result.1, result.2, ⟨turns, hresult⟩, rfl⟩
  · rintro ⟨places, tested, last, ⟨turns, hresult⟩, -⟩
    exact ⟨turns, .ok, by simp only [btreeInsertSepValue, hresult]⟩

/-- The loop stops at the first or the second separator if that agrees with the
bytes of `blank`, and leaves the node otherwise. -/
theorem compares_first_iff {left right : List UInt8}
    (hkey : 1 ≤ config.keySize)
    (hfits : 2 * config.keySize.toNat ≤ endOfPage.toNat)
    (hsep : sep.length = config.keySize.toNat)
    (hblank : blankBytes blank config.keySize = some bytes)
    (hleft : nodeBytes node (btreeGetSep config 0) config.keySize = some left)
    (hright : nodeBytes node
      (btreeGetSep config 0 + rightSep config.keySize) config.keySize =
        some right) :
    Compares blank config node sep (.first config) places ↔
      bytes = left ∧ places = [btreeGetSep config 0] ∨
      bytes ≠ left ∧ bytes = right ∧ places =
        [btreeGetSep config 0, btreeGetSep config 0 + rightSep config.keySize]
      := by
  have hfirst : nodeBytes node (SepCursor.first config).sepStart
      config.keySize = some left := hleft
  by_cases hstop : bytes = left
  · subst hstop
    rw [compares_stop hblank hfirst, and_iff_right rfl,
      or_iff_left fun h => h.1 rfl]
    rfl
  obtain ⟨second, hindex, hplace, hsecond⟩ :=
    @compares_left blank config node sep bytes (.first config) left hsep hblank
      rfl hfirst hstop
  have hrightBytes : nodeBytes node second.sepStart config.keySize =
      some right := hplace ▸ hright
  rw [hsecond, or_iff_right fun h => hstop h.1, and_iff_right hstop]
  by_cases hfound : bytes = right
  · subst hfound
    rw [and_iff_right rfl]
    simp only [compares_stop hblank hrightBytes, hplace]
    constructor
    · rintro ⟨rest, rfl, rfl⟩
      rfl
    · rintro rfl
      exact ⟨_, rfl, rfl⟩
  -- the index is still even, so the loop moves right once more
  · obtain ⟨third, -, hplace₃, hthird⟩ :=
      @compares_left blank config node sep bytes second right hsep hblank
        (hindex ▸ rfl) hrightBytes hfound
    have hpast : nodeBytes node third.sepStart config.keySize = none := by
      rw [hplace₃, hplace]
      exact nodeBytes_past_pair hkey hfits
    refine iff_of_false ?_ fun h => hfound h.1
    rintro ⟨rest, -, hrest⟩
    obtain ⟨rest, -, hrest⟩ := (hthird _).mp hrest
    exact compares_of_none (sepTest_none_right hpast) hrest

/-- `btree_insert_sep_value` returns exactly if one of the first two separators
agrees with the bytes of `blank`. -/
theorem btreeInsertSepValue_returns_iff (hkey : 1 ≤ config.keySize)
    (hfits : 2 * config.keySize.toNat ≤ endOfPage.toNat)
    (hsep : sep.length = config.keySize.toNat) :
    (∃ turns status, btreeInsertSepValue turns blank config (some node)
      (some sep) = some status) ↔
      ∃ bytes, blankBytes blank config.keySize = some bytes ∧
        (nodeBytes node (btreeGetSep config 0) config.keySize = some bytes ∨
          nodeBytes node (btreeGetSep config 0 + rightSep config.keySize)
            config.keySize = some bytes) := by
  rw [returns_iff_compares]
  obtain ⟨left, right, hleft, hright⟩ := exists_first_pair config node hfits
  constructor
  · rintro ⟨places, hcompares⟩
    cases hblank : blankBytes blank config.keySize with
    | none =>
        exact absurd hcompares (compares_of_none (sepTest_none_left hblank))
    | some bytes =>
        refine ⟨bytes, rfl, ?_⟩
        rcases (compares_first_iff hkey hfits hsep hblank hleft hright).mp
            hcompares with ⟨rfl, -⟩ | ⟨-, rfl, -⟩
        · exact Or.inl hleft
        · exact Or.inr hright
  · rintro ⟨bytes, hblank, hfound⟩
    have hcompares := fun places =>
      @compares_first_iff blank config node sep bytes places left right hkey
        hfits hsep hblank hleft hright
    by_cases hstop : bytes = left
    · exact ⟨_, (hcompares _).mpr (Or.inl ⟨hstop, rfl⟩)⟩
    · have hsecond : bytes = right := by
        rcases hfound with h | h
        · exact absurd (Option.some.inj (h.symm.trans hleft)) hstop
        · exact Option.some.inj (h.symm.trans hright)
      exact ⟨_, (hcompares _).mpr (Or.inr ⟨hstop, hsecond, rfl⟩)⟩

/-! ## The scan that is meant -/

/-- At least two pairs fit if the key is no longer than an address. -/
theorem sepSlots_of_short (hkey : 1 ≤ config.keySize)
    (hshort : config.keySize.toNat ≤ 8) :
    ∃ third rest, sepSlots config = btreeGetSep config 0 ::
      (btreeGetSep config 0 + rightSep config.keySize) :: third :: rest := by
  have hend : endOfPage.toNat = 4092 := rfl
  have hpos : 1 ≤ config.keySize.toNat := hkey
  have hpairs : 2 ≤ endOfPage.toNat / (2 * config.keySize.toNat) := by
    rw [Nat.le_div_iff_mul_le (by omega)]
    omega
  obtain ⟨pairs, hcount⟩ := Nat.exists_eq_add_of_le' hpairs
  rw [sepSlots, hcount, List.range_succ_eq_map, List.range_succ_eq_map,
    List.map_cons, List.flatMap_cons, List.flatMap_cons]
  exact ⟨_, _, rfl⟩

theorem untilEmpty_eq_singleton_iff {second : UInt64} :
    untilEmpty config node (place :: second :: places) = [place] ↔
      SlotEmpty config node place := by
  rw [untilEmpty]
  by_cases hempty : SlotEmpty config node place
  · rw [if_pos hempty]
    exact iff_of_true rfl hempty
  · rw [if_neg hempty, untilEmpty]
    refine iff_of_false (fun h => ?_) hempty
    split at h
    next => cases h
    next => cases h

theorem untilEmpty_eq_pair_iff {second third : UInt64} :
    untilEmpty config node (place :: second :: third :: places) =
        [place, second] ↔
      ¬SlotEmpty config node place ∧ SlotEmpty config node second := by
  rw [untilEmpty]
  by_cases hempty : SlotEmpty config node place
  · rw [if_pos hempty]
    refine iff_of_false (fun h => ?_) fun h => h.1 hempty
    cases h
  · rw [if_neg hempty, List.cons.injEq, and_iff_right rfl,
      and_iff_right hempty]
    exact untilEmpty_eq_singleton_iff

theorem length_le_of_blankBytes {length : UInt64}
    (h : blankBytes blank length = some bytes) : length.toNat ≤ 8 := by
  unfold blankBytes at h
  split at h
  next hle => exact hle
  next => cases h

/-- What the loop compares, if it ends, lies inside the node. -/
theorem Compares.inside {cursor : SepCursor}
    (h : Compares blank config node sep cursor places) :
    ∀ place ∈ places,
      place.toNat + config.keySize.toNat ≤ endOfPage.toNat := by
  obtain ⟨tested, last, hends, rfl⟩ := h
  intro place hplace
  obtain ⟨cursor, hcursor, rfl⟩ := List.mem_map.mp hplace
  by_contra hpast
  apply hends.tested_defined cursor hcursor
  apply sepTest_none_right
  exact nodeBytes_eq_none (Nat.lt_of_not_le hpast)

theorem slotEmpty_iff (h : nodeBytes node place config.keySize = some bytes) :
    SlotEmpty config node place ↔
      bytes = List.replicate config.keySize.toNat 0 := by
  rw [SlotEmpty, h, Option.some.injEq]

/-- A loop that is the scan that is meant has compared with zeros. -/
theorem ScansInOrder.zero (h : ScansInOrder blank config node sep)
    (hkey : 1 ≤ config.keySize)
    (hfits : 2 * config.keySize.toNat ≤ endOfPage.toNat)
    (hsep : sep.length = config.keySize.toNat) :
    BlankZero blank config ∧
      (SlotEmpty config node (btreeGetSep config 0) ∨
        SlotEmpty config node
          (btreeGetSep config 0 + rightSep config.keySize)) := by
  obtain ⟨places, hcompares, -, hplaces⟩ := h
  cases hblank : blankBytes blank config.keySize with
  | none => exact absurd hcompares (compares_of_none (sepTest_none_left hblank))
  | some bytes =>
      obtain ⟨left, right, hleft, hright⟩ :=
        exists_first_pair config node hfits
      obtain ⟨third, rest, hslots⟩ :=
        sepSlots_of_short hkey (length_le_of_blankBytes hblank)
      rw [hslots] at hplaces
      rw [BlankZero, hblank, Option.some.injEq]
      rcases (compares_first_iff hkey hfits hsep hblank hleft hright).mp
          hcompares with ⟨rfl, rfl⟩ | ⟨-, rfl, rfl⟩
      · have hempty := untilEmpty_eq_singleton_iff.mp hplaces.symm
        exact ⟨(slotEmpty_iff hleft).mp hempty, Or.inl hempty⟩
      · obtain ⟨-, hempty⟩ := untilEmpty_eq_pair_iff.mp hplaces.symm
        exact ⟨(slotEmpty_iff hright).mp hempty, Or.inr hempty⟩

/-- A loop that compares with zeros finds one of the first two separators. -/
theorem scansInOrder_of_zero (hkey : 1 ≤ config.keySize)
    (hfits : 2 * config.keySize.toNat ≤ endOfPage.toNat)
    (hsep : sep.length = config.keySize.toNat)
    (hzero : BlankZero blank config)
    (hempty : SlotEmpty config node (btreeGetSep config 0) ∨
      SlotEmpty config node (btreeGetSep config 0 + rightSep config.keySize)) :
    ScansInOrder blank config node sep := by
  obtain ⟨left, right, hleft, hright⟩ := exists_first_pair config node hfits
  obtain ⟨third, rest, hslots⟩ :=
    sepSlots_of_short hkey (length_le_of_blankBytes hzero)
  have hcompares := fun places =>
    @compares_first_iff blank config node sep _ places left right hkey hfits
      hsep hzero hleft hright
  by_cases hfirst : SlotEmpty config node (btreeGetSep config 0)
  · have hfound : Compares blank config node sep (.first config)
        [btreeGetSep config 0] := by
      apply (hcompares _).mpr
      exact Or.inl ⟨((slotEmpty_iff hleft).mp hfirst).symm, rfl⟩
    refine ⟨_, hfound, hfound.inside, ?_⟩
    rw [hslots, untilEmpty_eq_singleton_iff.mpr hfirst]
  · have hsecond := hempty.resolve_left hfirst
    have hfound : Compares blank config node sep (.first config)
        [btreeGetSep config 0,
          btreeGetSep config 0 + rightSep config.keySize] := by
      apply (hcompares _).mpr
      refine Or.inr ⟨fun hsame => ?_, ?_, rfl⟩
      · exact hfirst ((slotEmpty_iff hleft).mpr hsame.symm)
      · exact ((slotEmpty_iff hright).mp hsecond).symm
    refine ⟨_, hfound, hfound.inside, ?_⟩
    rw [hslots, untilEmpty_eq_pair_iff.mpr ⟨hfirst, hsecond⟩]

/-- The loop is the scan that is meant exactly if it compares with zeros, and
one of the first two separators is zero. -/
theorem scansInOrder_iff (hkey : 1 ≤ config.keySize)
    (hfits : 2 * config.keySize.toNat ≤ endOfPage.toNat)
    (hsep : sep.length = config.keySize.toNat) :
    ScansInOrder blank config node sep ↔
      BlankZero blank config ∧
        (SlotEmpty config node (btreeGetSep config 0) ∨
          SlotEmpty config node
            (btreeGetSep config 0 + rightSep config.keySize)) := by
  constructor
  · intro h
    exact h.zero hkey hfits hsep
  · rintro ⟨hzero, hempty⟩
    exact scansInOrder_of_zero hkey hfits hsep hzero hempty

/-- A key of one byte, and an address that ends in a byte of zero. -/
theorem scansInOrder_short :
    ScansInOrder 256 ⟨1, 1, .defaultCmpKeys⟩ blankPage [7] := by
  apply (scansInOrder_iff (by decide) (by decide) rfl).mpr
  exact ⟨by decide, Or.inl (by decide)⟩

/-- In a node without separators the loop does not stop at the first place. -/
theorem not_scansInOrder_empty :
    ¬ScansInOrder 0x5555555592a0 ⟨1, 8, .defaultCmpKeys⟩ blankPage
      [0, 0, 0, 0, 0, 0, 0, 1] := by
  intro h
  obtain ⟨hzero, -⟩ := h.zero (by decide) (by decide) rfl
  exact absurd hzero (by decide)

/-! ## Whether there is a separator at all -/

/-- The test of `btree_insert`: the list begins with a byte of zero. -/
def ListEmpty (config : BtreeConfig) (node : Page) : Prop :=
  nodeByte node (btreeGetSepList config) = some 0

/-- The list begins with a byte of zero exactly if the first separator is
zero. -/
def EmptyTestsAgree (config : BtreeConfig) (node : Page) : Prop :=
  ListEmpty config node ↔ SlotEmpty config node (btreeGetSep config 0)

/-- The same, and the first test of the loop says so, too. -/
def FirstTestsAgree (blank : UInt64) (config : BtreeConfig) (node : Page) :
    Prop :=
  ∃ found, sepTest blank config node (.first config) = some found ∧
    (ListEmpty config node ↔ found = false) ∧
    (found = false ↔ SlotEmpty config node (btreeGetSep config 0))

/-- Both separators of the first pair are zero, or both begin with a byte that
is not zero. -/
def PairWhole (config : BtreeConfig) (node : Page) : Prop :=
  SlotEmpty config node (btreeGetSep config 0) ∧
      SlotEmpty config node (btreeGetSep config 0 + rightSep config.keySize) ∨
    nodeByte node (btreeGetSep config 0) ≠ some 0 ∧
      nodeByte node (btreeGetSep config 0 + rightSep config.keySize) ≠ some 0

/-- The separator is zero, or begins with a byte that is not zero, as a string
does. -/
def SlotLettered (config : BtreeConfig) (node : Page) (place : UInt64) : Prop :=
  SlotEmpty config node place ∨ nodeByte node place ≠ some 0

theorem head_nodeBytes {length : UInt64} (hlength : 1 ≤ length)
    (h : nodeBytes node place length = some bytes) :
    nodeByte node place = bytes.head? := by
  have hpos : 0 < length.toNat := hlength
  unfold nodeBytes at h
  split at h
  next hfits =>
    have hplace : 4 + place.toNat < pageSize := by omega
    obtain rfl := Option.some.inj h
    rw [nodeByte, dif_pos hplace, List.head?_eq_getElem?, List.getElem?_ofFn,
      dif_pos hpos]
    rfl
  next => cases h

/-- The list is said to begin at the right separator of the first pair. -/
theorem btreeGetSepList_eq
    (hfits : 2 * config.keySize.toNat ≤ endOfPage.toNat) :
    btreeGetSepList config =
      btreeGetSep config 0 + rightSep config.keySize := by
  apply UInt64.toNat_inj.mp
  rw [toNat_btreeGetSep_right hfits, toNat_btreeGetSepList (by omega)]

/-- A separator of zeros begins with zero. -/
theorem SlotEmpty.head (hkey : 1 ≤ config.keySize)
    (h : SlotEmpty config node place) : nodeByte node place = some 0 := by
  have hpos : config.keySize.toNat ≠ 0 := Nat.one_le_iff_ne_zero.mp hkey
  rw [head_nodeBytes hkey h, List.head?_replicate, if_neg hpos]

theorem emptyTestsAgree_iff
    (hfits : 2 * config.keySize.toNat ≤ endOfPage.toNat) :
    EmptyTestsAgree config node ↔
      (nodeByte node (btreeGetSep config 0 + rightSep config.keySize) =
          some 0 ↔
        SlotEmpty config node (btreeGetSep config 0)) := by
  rw [EmptyTestsAgree, ListEmpty, btreeGetSepList_eq hfits]

theorem PairWhole.agree (hkey : 1 ≤ config.keySize)
    (hfits : 2 * config.keySize.toNat ≤ endOfPage.toNat)
    (h : PairWhole config node) : EmptyTestsAgree config node := by
  apply (emptyTestsAgree_iff hfits).mpr
  rcases h with ⟨hleft, hright⟩ | ⟨hleft, hright⟩
  · exact iff_of_true (hright.head hkey) hleft
  · exact iff_of_false hright fun hempty => hleft (hempty.head hkey)

/-- Where no separator begins with zero unless all of it is zero, the tests
agree on whole pairs only. -/
theorem pairWhole_of_agree (hkey : 1 ≤ config.keySize)
    (hfits : 2 * config.keySize.toNat ≤ endOfPage.toNat)
    (hleft : SlotLettered config node (btreeGetSep config 0))
    (hright : SlotLettered config node
      (btreeGetSep config 0 + rightSep config.keySize))
    (h : EmptyTestsAgree config node) : PairWhole config node := by
  have hagree := (emptyTestsAgree_iff hfits).mp h
  rcases hright with hright | hright
  · exact Or.inl ⟨hagree.mp (hright.head hkey), hright⟩
  · have hfilled := mt hagree.mpr hright
    exact Or.inr ⟨hleft.resolve_left hfilled, hright⟩

/-- With a variable `blank` of zeros the first test of the loop is the one that
is meant. -/
theorem firstTestsAgree_iff
    (hfits : 2 * config.keySize.toNat ≤ endOfPage.toNat)
    (hzero : BlankZero blank config) :
    FirstTestsAgree blank config node ↔ EmptyTestsAgree config node := by
  obtain ⟨left, right, hleft, -⟩ := exists_first_pair config node hfits
  have htest : sepTest blank config node (.first config) =
      some (decide (List.replicate config.keySize.toNat 0 ≠ left)) :=
    sepTest_some hzero hleft
  have hstop : decide (List.replicate config.keySize.toNat 0 ≠ left) = false ↔
      SlotEmpty config node (btreeGetSep config 0) := by
    rw [slotEmpty_iff hleft, decide_eq_false_iff_not, not_not]
    exact eq_comm
  constructor
  · rintro ⟨found, -, hlist, hslot⟩
    exact hlist.trans hslot
  · intro hagree
    exact ⟨_, htest, hagree.trans hstop.symm, hstop⟩

/-- The byte at the start of the list tells whether the first separator is zero
if the first pair is whole, and on keys that do not begin with zero only then.
The first test of the loop tells the same if its variable `blank` begins with
zeros. -/
theorem empty_tests_agree (blank : UInt64) (node : Page)
    (hkey : 1 ≤ config.keySize)
    (hfits : 2 * config.keySize.toNat ≤ endOfPage.toNat) :
    (PairWhole config node → EmptyTestsAgree config node) ∧
      (SlotLettered config node (btreeGetSep config 0) →
        SlotLettered config node
          (btreeGetSep config 0 + rightSep config.keySize) →
        (EmptyTestsAgree config node ↔ PairWhole config node)) ∧
      (PairWhole config node → BlankZero blank config →
        FirstTestsAgree blank config node) := by
  refine ⟨PairWhole.agree hkey hfits, ?_, ?_⟩
  · intro hleft hright
    exact ⟨pairWhole_of_agree hkey hfits hleft hright,
      PairWhole.agree hkey hfits⟩
  · intro hwhole hzero
    exact (firstTestsAgree_iff hfits hzero).mpr (hwhole.agree hkey hfits)

/-- On keys of one byte, and with an address that ends in a byte of zero, the
tests agree in a node without separators and in one that is full of them. -/
theorem empty_tests_agree_both :
    FirstTestsAgree 256 ⟨1, 1, .defaultCmpKeys⟩ blankPage ∧
      FirstTestsAgree 256 ⟨1, 1, .defaultCmpKeys⟩ onesPage ∧
      EmptyTestsAgree ⟨1, 1, .defaultCmpKeys⟩ onesPage := by
  have hzero : BlankZero 256 ⟨1, 1, .defaultCmpKeys⟩ := by decide
  have hblank : PairWhole ⟨1, 1, .defaultCmpKeys⟩ blankPage :=
    Or.inl ⟨by decide, by decide⟩
  have hleft : nodeByte onesPage
      (btreeGetSep ⟨1, 1, .defaultCmpKeys⟩ 0) ≠ some 0 := by decide
  have hright : nodeByte onesPage (btreeGetSep ⟨1, 1, .defaultCmpKeys⟩ 0 +
      rightSep 1) ≠ some 0 := by decide
  obtain ⟨-, -, hfirst⟩ :=
    @empty_tests_agree ⟨1, 1, .defaultCmpKeys⟩ 256 blankPage (by decide)
      (by decide)
  obtain ⟨-, hlettered, hfilled⟩ :=
    @empty_tests_agree ⟨1, 1, .defaultCmpKeys⟩ 256 onesPage (by decide)
      (by decide)
  have hwhole : PairWhole ⟨1, 1, .defaultCmpKeys⟩ onesPage :=
    Or.inr ⟨hleft, hright⟩
  exact ⟨hfirst hblank hzero, hfilled hwhole hzero,
    (hlettered (Or.inr hleft) (Or.inr hright)).mpr hwhole⟩

/-- A node with the left separator of its first pair only, for keys of eight
bytes. -/
def leftOnly : Page := fun i => if (i : ℕ) = 4080 then 1 else 0

/-- The list of that node begins with zero, although there is a separator. -/
theorem not_empty_tests_agree :
    ListEmpty ⟨1, 8, .defaultCmpKeys⟩ leftOnly ∧
      ¬SlotEmpty ⟨1, 8, .defaultCmpKeys⟩ leftOnly
        (btreeGetSep ⟨1, 8, .defaultCmpKeys⟩ 0) ∧
      ¬EmptyTestsAgree ⟨1, 8, .defaultCmpKeys⟩ leftOnly := by
  have hlist : ListEmpty ⟨1, 8, .defaultCmpKeys⟩ leftOnly := by
    rw [ListEmpty]
    decide
  have hslot : ¬SlotEmpty ⟨1, 8, .defaultCmpKeys⟩ leftOnly
      (btreeGetSep ⟨1, 8, .defaultCmpKeys⟩ 0) := by decide
  exact ⟨hlist, hslot, fun h => hslot (h.mp hlist)⟩

end NickDB

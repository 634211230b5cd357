import NickDB.Btree.Create
import Mathlib.Order.Interval.Set.Basic

/-!
# The first pair of separators

A directory node begins with its pointers and ends with its separators, whose
places are computed from the key size in `size_t`.  `btree_open` refuses the key
size 0 only, and `btree_create` refuses none, so the places wrap around, or run
into the pointers, once two separators and two pointers are too large for a
page.
-/

namespace NickDB

open BufferManager

variable {frames : ℕ}

/-- The bytes of a separator that starts at some place of the node. -/
def slot (start keySize : UInt64) : Set ℕ :=
  Set.Ico start.toNat (start.toNat + keySize.toNat)

/-- The bytes of the first two pointers of a directory. -/
def pointerBytes : Set ℕ := Set.Ico 0 (2 * 8)

/-- A separator starts at the place that is meant, lies inside the node and
leaves the pointers alone. -/
structure SlotSound (start keySize : UInt64) (meant : ℤ) : Prop where
  exact : (start.toNat : ℤ) = meant
  inside : slot start keySize ⊆ Set.Ico 0 endOfPage.toNat
  apart : ∀ i ∈ slot start keySize, i ∉ pointerBytes

/-- Both separators of the first pair, and the start of the list, are sound. -/
structure SlotsFit (config : BtreeConfig) : Prop where
  left : SlotSound (btreeGetSep config 0) config.keySize
    (endOfPage.toNat - 2 * config.keySize.toNat)
  right : SlotSound (btreeGetSep config 0 + rightSep config.keySize)
    config.keySize (endOfPage.toNat - config.keySize.toNat)
  list : SlotSound (btreeGetSepList config) config.keySize
    (endOfPage.toNat - config.keySize.toNat)

/-- A configuration that a call with this key size accepts. -/
inductive Accepted (keySize : UInt64) : BtreeConfig → Prop
  | created {frames rootPin leafPin : ℕ} {config config' : BtreeConfig}
      {manager manager' : BufferManager frames} {file file' : StoreFile}
      {comparator : Option KeyComparator}
      (hcall : btreeCreate rootPin leafPin config manager file keySize
        comparator = some (.ok, config', manager', file')) :
      Accepted keySize config'
  | opened {config config' : BtreeConfig} {root : PageIndex}
      {comparator : Option KeyComparator}
      (hcall : btreeOpen config root keySize comparator = (.ok, config')) :
      Accepted keySize config'

/-- A tree that is created can be opened, with the same configuration, and the
separators fit into the nodes of whatever is accepted. -/
def CreateOpenAgree (keySize : UInt64) : Prop :=
  (∀ frames rootPin leafPin config config₂ config'
      (manager manager' : BufferManager frames) file file' comparator,
    btreeCreate rootPin leafPin config manager file keySize comparator =
      some (.ok, config', manager', file') →
    btreeOpen config₂ config'.root keySize comparator = (.ok, config')) ∧
  ∀ config, Accepted keySize config → SlotsFit config

/-! ## What is accepted -/

theorem btreeOpen_ok_iff {config config' : BtreeConfig} {root : PageIndex}
    {keySize : UInt64} {comparator : Option KeyComparator} :
    btreeOpen config root keySize comparator = (.ok, config') ↔
      ¬(root < 1 ∨ keySize < 1) ∧
        config' = { root := root, keySize := keySize
                    comparator := comparator.getD .defaultCmpKeys } := by
  unfold btreeOpen
  split
  next hrefused =>
    refine iff_of_false ?_ fun h => h.1 hrefused
    intro h
    cases h
  next haccepted =>
    rw [Prod.mk.injEq, and_iff_right rfl, and_iff_right haccepted]
    exact eq_comm

/-- A tree that is built would be opened with the configuration it has exactly if
it has a root and its key size is not 0. -/
theorem BuildOutcome.open_ok_iff {rootPin leafPin : ℕ} {status : Status}
    {config config₂ config' : BtreeConfig} {keySize : UInt64}
    {comparator : Option KeyComparator} {nodes : Fin frames × Fin frames}
    {manager manager' : BufferManager frames} {file file' : StoreFile}
    (h : BuildOutcome rootPin leafPin config manager file keySize comparator
      status config' (some nodes) manager' file') :
    btreeOpen config₂ config'.root keySize comparator = (.ok, config') ↔
      1 ≤ config'.root ∧ 1 ≤ keySize := by
  cases h with
  | built hroot hleaf =>
      rw [btreeOpen_ok_iff, and_iff_left rfl, not_or, Int64.not_lt,
        UInt64.not_lt]

/-- Only `btree_open` accepts anything. -/
theorem accepted_iff {keySize : UInt64} {config : BtreeConfig} :
    Accepted keySize config ↔
      config.keySize = keySize ∧ 1 ≤ keySize ∧ 1 ≤ config.root := by
  constructor
  · rintro (hcall | hcall)
    · exact absurd rfl (createOutcome_of_btreeCreate hcall).status_ne_ok
    · obtain ⟨haccepted, rfl⟩ := btreeOpen_ok_iff.mp hcall
      rw [not_or] at haccepted
      exact ⟨rfl, UInt64.not_lt.mp haccepted.2, Int64.not_lt.mp haccepted.1⟩
  · rintro ⟨rfl, hkey, hroot⟩
    have hcall : btreeOpen config config.root config.keySize
        (some config.comparator) = (.ok, config) := by
      refine btreeOpen_ok_iff.mpr ⟨?_, rfl⟩
      rw [not_or]
      exact ⟨Int64.not_lt.mpr hroot, UInt64.not_lt.mpr hkey⟩
    exact .opened hcall

/-! ## Where the separators are -/

theorem slotSound_iff {start keySize : UInt64} {meant : ℤ}
    (hkey : 1 ≤ keySize) :
    SlotSound start keySize meant ↔
      (start.toNat : ℤ) = meant ∧ 16 ≤ start.toNat ∧
        start.toNat + keySize.toNat ≤ endOfPage.toNat := by
  have hpos : 1 ≤ keySize.toNat := hkey
  have hstart : start.toNat ∈ slot start keySize := ⟨Nat.le_refl _, by omega⟩
  constructor
  · rintro ⟨hexact, hinside, hapart⟩
    refine ⟨hexact, ?_, ?_⟩
    · by_contra hlow
      have hpointer : start.toNat ∈ pointerBytes := ⟨Nat.zero_le _, by omega⟩
      exact hapart _ hstart hpointer
    · have hlast : start.toNat + keySize.toNat - 1 ∈ slot start keySize :=
        ⟨by omega, by omega⟩
      have hend := (hinside hlast).2
      omega
  · rintro ⟨hexact, hlow, hhigh⟩
    refine ⟨hexact, ?_, ?_⟩
    · rintro i ⟨-, hi⟩
      exact ⟨Nat.zero_le i, by omega⟩
    · rintro i ⟨hi, -⟩ ⟨-, hpointer⟩
      omega

/-- The place of a pair is not wrapped around where the pair fits into a
node. -/
theorem toNat_btreeGetSep {config : BtreeConfig}
    (hfits : 2 * config.keySize.toNat ≤ endOfPage.toNat) :
    (btreeGetSep config 0).toNat =
      endOfPage.toNat - 2 * config.keySize.toNat := by
  have hend : endOfPage.toNat = 4092 := rfl
  have hpair : (config.keySize * 2 * (0 + 1)).toNat =
      2 * config.keySize.toNat := by
    rw [UInt64.zero_add, UInt64.mul_one, UInt64.toNat_mul, Nat.mul_comm]
    apply Nat.mod_eq_of_lt
    exact hfits.trans_lt (by rw [hend]; decide)
  rw [btreeGetSep, UInt64.toNat_sub_of_le, hpair]
  rw [UInt64.le_iff_toNat_le, hpair]
  exact hfits

/-- The right separator of the pair starts where the list is said to. -/
theorem toNat_btreeGetSep_right {config : BtreeConfig}
    (hfits : 2 * config.keySize.toNat ≤ endOfPage.toNat) :
    (btreeGetSep config 0 + rightSep config.keySize).toNat =
      endOfPage.toNat - config.keySize.toNat := by
  have hend : endOfPage.toNat = 4092 := rfl
  rw [UInt64.toNat_add, rightSep, toNat_btreeGetSep hfits,
    Nat.mod_eq_of_lt (by omega)]
  omega

theorem toNat_btreeGetSepList {config : BtreeConfig}
    (hfits : config.keySize.toNat ≤ endOfPage.toNat) :
    (btreeGetSepList config).toNat =
      endOfPage.toNat - config.keySize.toNat :=
  UInt64.toNat_sub_of_le endOfPage config.keySize hfits

theorem slotsFit_iff {config : BtreeConfig} (hkey : 1 ≤ config.keySize) :
    SlotsFit config ↔ 2 * config.keySize.toNat + 16 ≤ endOfPage.toNat := by
  have hend : endOfPage.toNat = 4092 := rfl
  constructor
  · intro h
    obtain ⟨hexact, hlow, -⟩ := (slotSound_iff hkey).mp h.left
    omega
  · intro hfits
    have hleft := @toNat_btreeGetSep config (by omega)
    have hlist := @toNat_btreeGetSepList config (by omega)
    have hright := @toNat_btreeGetSep_right config (by omega)
    constructor
    · rw [slotSound_iff hkey, hleft]
      omega
    · rw [slotSound_iff hkey, hright]
      omega
    · rw [slotSound_iff hkey, hlist]
      omega

/-! ## Which key sizes are right -/

/-- Creating and opening a tree agree on a key size exactly if two separators
and two pointers fit into a node. -/
theorem create_open_agree_iff (keySize : UInt64) :
    CreateOpenAgree keySize ↔
      2 * keySize.toNat + 16 ≤ endOfPage.toNat := by
  constructor
  · rintro ⟨-, hfits⟩
    by_cases hkey : 1 ≤ keySize
    · have haccepted : Accepted keySize
          { emptyConfig with root := 1, keySize := keySize } :=
        accepted_iff.mpr ⟨rfl, hkey, Int64.le_refl 1⟩
      exact (slotsFit_iff hkey).mp (hfits _ haccepted)
    · have hzero : ¬1 ≤ keySize.toNat := hkey
      have hend : endOfPage.toNat = 4092 := rfl
      omega
  · intro hsize
    constructor
    · intro frames rootPin leafPin config config₂ config' manager manager' file
        file' comparator hcall
      exact absurd rfl (createOutcome_of_btreeCreate hcall).status_ne_ok
    · intro config haccepted
      obtain ⟨rfl, hkey, -⟩ := accepted_iff.mp haccepted
      exact (slotsFit_iff hkey).mpr hsize

/-- A key of a whole page is accepted, and its separators wrap around. -/
theorem open_accepts_page_key :
    btreeOpen emptyConfig 1 4096 none =
        (.ok, { root := 1, keySize := 4096, comparator := .defaultCmpKeys }) ∧
      ¬CreateOpenAgree 4096 := by
  have hcall : btreeOpen emptyConfig 1 4096 none =
      (.ok, { root := 1, keySize := 4096, comparator := .defaultCmpKeys }) :=
    rfl
  refine ⟨hcall, ?_⟩
  rintro ⟨-, hfits⟩
  have hfit := hfits _ (.opened hcall)
  exact absurd ((slotsFit_iff (by decide)).mp hfit) (by decide)

end NickDB

import Mathlib.Data.List.Basic
import Mathlib.Data.Nat.Notation
import Mathlib.Order.Nat

/-!
# Tables of handles

A table that gives every object that is opened the lowest number which is free,
as a process does with its descriptors.  Numbers past the end of the table are
free.
-/

/-- The object behind each number. -/
abbrev HandleTable (α : Type*) := List (Option α)

namespace HandleTable

variable {α : Type*}

/-- The object behind the number. -/
def lookup (table : HandleTable α) (n : ℕ) : Option α :=
  (table[n]?).join

/-- The lowest number that is free. -/
def lowestFree (table : HandleTable α) : ℕ :=
  table.findIdx Option.isNone

/-- The object gets the lowest free number. -/
def install (table : HandleTable α) (object : α) : HandleTable α :=
  if table.lowestFree < table.length then
    table.set table.lowestFree (some object)
  else table ++ [some object]

/-- The number becomes free. -/
def release (table : HandleTable α) (n : ℕ) : HandleTable α :=
  table.set n none

variable {table : HandleTable α} {object : α} {m n : ℕ}

theorem lookup_lowestFree : table.lookup table.lowestFree = none := by
  rw [lookup, lowestFree]
  rcases Nat.lt_or_ge (table.findIdx Option.isNone) table.length with h | h
  · have hfree := List.findIdx_getElem (w := h)
    rw [List.getElem?_eq_getElem h, Option.isNone_iff_eq_none.mp hfree]
    rfl
  · rw [List.getElem?_eq_none h]
    rfl

/-- Every number below the lowest free one is taken. -/
theorem isSome_lookup_of_lt (h : m < table.lowestFree) :
    (table.lookup m).isSome := by
  have hlength : m < table.length :=
    lt_of_lt_of_le h List.findIdx_le_length
  have htaken := List.not_of_lt_findIdx h
  rw [lookup, List.getElem?_eq_getElem hlength]
  simpa [Option.isSome_iff_ne_none] using htaken

theorem lowestFree_eq_iff : table.lowestFree = n ↔
    table.lookup n = none ∧ ∀ m < n, (table.lookup m).isSome := by
  constructor
  · rintro rfl
    exact ⟨lookup_lowestFree, fun m hm => isSome_lookup_of_lt hm⟩
  · rintro ⟨hfree, htaken⟩
    rcases Nat.lt_trichotomy table.lowestFree n with h | h | h
    · have htaken := htaken _ h
      rw [lookup_lowestFree] at htaken
      cases htaken
    · exact h
    · have htaken := isSome_lookup_of_lt h
      rw [hfree] at htaken
      cases htaken

theorem lowestFree_eq_length (h : ¬table.lowestFree < table.length) :
    table.lowestFree = table.length :=
  le_antisymm List.findIdx_le_length (not_lt.mp h)

@[simp] theorem lookup_install_self :
    (table.install object).lookup table.lowestFree = some object := by
  rw [install, lookup]
  split
  next h => rw [List.getElem?_set_self h]; rfl
  next h =>
    rw [lowestFree_eq_length h, List.getElem?_concat_length]
    rfl

theorem lookup_install_of_ne (h : n ≠ table.lowestFree) :
    (table.install object).lookup n = table.lookup n := by
  rw [install, lookup, lookup]
  split
  next => rw [List.getElem?_set_ne h.symm]
  next hfull =>
    rcases Nat.lt_or_gt_of_ne (lowestFree_eq_length hfull ▸ h) with hlt | hgt
    · rw [List.getElem?_append_left hlt]
    · rw [List.getElem?_eq_none (by simpa using Nat.succ_le_of_lt hgt),
        List.getElem?_eq_none (le_of_lt hgt)]

@[simp] theorem lookup_release_self : (table.release n).lookup n = none := by
  rw [release, lookup]
  rcases Nat.lt_or_ge n table.length with h | h
  · rw [List.getElem?_set_self h]
    rfl
  · rw [List.getElem?_eq_none (by simpa using h)]
    rfl

theorem lookup_release_of_ne (h : m ≠ n) :
    (table.release n).lookup m = table.lookup m := by
  rw [release, lookup, List.getElem?_set_ne h.symm, lookup]

/-- A number that becomes free is the next to be given out exactly if every
lower number is taken. -/
theorem lowestFree_release_iff : (table.release n).lowestFree = n ↔
    ∀ m < n, (table.lookup m).isSome := by
  rw [lowestFree_eq_iff]
  constructor
  · rintro ⟨-, htaken⟩ m hm
    rw [← lookup_release_of_ne hm.ne]
    exact htaken m hm
  · intro htaken
    refine ⟨lookup_release_self, fun m hm => ?_⟩
    rw [lookup_release_of_ne hm.ne]
    exact htaken m hm

end HandleTable

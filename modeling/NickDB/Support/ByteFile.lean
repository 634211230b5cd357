import Mathlib.Data.Nat.Notation
import Mathlib.Order.Basic
import Mathlib.Tactic.Ext

/-!
# Flat files

A file is an array of cells with a length.  Cells past the end read as zero, so
that a write beyond the end leaves a hole of zeros behind it, as a sparse file
does.  The lemmas say when a read sees a write and when the two miss each
other.
-/

/-- A flat array of cells; every cell past the end is zero. -/
@[ext] structure ByteFile (β : Type*) [Zero β] where
  length : ℕ
  byte : ℕ → β
  zero_past_end : ∀ k, length ≤ k → byte k = 0

namespace ByteFile

variable {β : Type*} [Zero β] {n m : ℕ}

/-- The empty file. -/
def empty : ByteFile β where
  length := 0
  byte := fun _ => 0
  zero_past_end := fun _ _ => rfl

/-- The `n` cells from position `pos` on. -/
def read (file : ByteFile β) (pos n : ℕ) : Fin n → β :=
  fun i => file.byte (pos + i)

/-- Overwrite the cells from `pos` on.  Writing no cell does not move the end
of the file. -/
def write (file : ByteFile β) (pos : ℕ) (data : Fin n → β) : ByteFile β where
  length := if n = 0 then file.length else max file.length (pos + n)
  byte := fun k =>
    if h : pos ≤ k ∧ k - pos < n then data ⟨k - pos, h.2⟩ else file.byte k
  zero_past_end := by
    intro k hk
    have hlen : file.length ≤ k ∧ ¬(pos ≤ k ∧ k - pos < n) := by
      split at hk <;> omega
    rw [dif_neg hlen.2]
    exact file.zero_past_end k hlen.1

@[simp] theorem read_apply (file : ByteFile β) (pos : ℕ) (i : Fin n) :
    file.read pos n i = file.byte (pos + i) := rfl

theorem length_write (file : ByteFile β) (pos : ℕ) (data : Fin n → β)
    (hn : 0 < n) : (file.write pos data).length = max file.length (pos + n) :=
  if_neg (Nat.pos_iff_ne_zero.mp hn)

theorem length_le_length_write (file : ByteFile β) (pos : ℕ)
    (data : Fin n → β) : file.length ≤ (file.write pos data).length := by
  simp only [write]
  split <;> omega

theorem byte_write_of_mem (file : ByteFile β) (pos : ℕ) (data : Fin n → β)
    {k : ℕ} (hk : pos ≤ k ∧ k < pos + n) :
    (file.write pos data).byte k = data ⟨k - pos, by omega⟩ :=
  dif_pos (by omega)

theorem byte_write_of_not_mem (file : ByteFile β) (pos : ℕ) (data : Fin n → β)
    {k : ℕ} (hk : k < pos ∨ pos + n ≤ k) :
    (file.write pos data).byte k = file.byte k :=
  dif_neg (by omega)

/-- A read of the range just written returns the data. -/
@[simp] theorem read_write_self (file : ByteFile β) (pos : ℕ)
    (data : Fin n → β) : (file.write pos data).read pos n = data := by
  funext i
  rw [read_apply, byte_write_of_mem file pos data (by omega)]
  exact congrArg data (Fin.ext (Nat.add_sub_cancel_left pos i))

/-- A read of a range that a write misses is unchanged. -/
theorem read_write_of_disjoint (file : ByteFile β) (pos pos' : ℕ)
    (data : Fin n → β) (h : pos' + m ≤ pos ∨ pos + n ≤ pos') :
    (file.write pos data).read pos' m = file.read pos' m := by
  funext i
  exact byte_write_of_not_mem file pos data (by omega)

/-- A second write to a range hides the first. -/
theorem write_write_self (file : ByteFile β) (pos : ℕ)
    (first second : Fin n → β) :
    (file.write pos first).write pos second = file.write pos second := by
  ext k
  · simp only [write]
    split <;> omega
  · by_cases hk : pos ≤ k ∧ k < pos + n
    · rw [byte_write_of_mem _ pos second hk, byte_write_of_mem _ pos second hk]
    · have hk' : k < pos ∨ pos + n ≤ k := by omega
      rw [byte_write_of_not_mem _ pos second hk',
        byte_write_of_not_mem _ pos first hk',
        byte_write_of_not_mem _ pos second hk']

end ByteFile

import Mathlib.Algebra.Group.Nat.Defs
import Mathlib.Data.Nat.Notation
import Mathlib.Data.Int.Basic

/-!
# Machine words in byte buffers

A 64-bit signed word occupies eight consecutive bytes of a buffer, least
significant byte first.  Storing a word and loading it back gives the same
word, and words at disjoint positions do not disturb each other.
-/

namespace Words

/-- The eight bytes of a word, least significant first. -/
def encode (x : Int64) : Fin 8 → UInt8 :=
  fun j => UInt8.ofNat (x.toUInt64.toNat / 256 ^ (j : ℕ))

/-- The word whose bytes are `b`. -/
def decode (b : Fin 8 → UInt8) : Int64 :=
  Int64.ofNat ((b 0).toNat + 256 * (b 1).toNat + 256 ^ 2 * (b 2).toNat +
    256 ^ 3 * (b 3).toNat + 256 ^ 4 * (b 4).toNat + 256 ^ 5 * (b 5).toNat +
    256 ^ 6 * (b 6).toNat + 256 ^ 7 * (b 7).toNat)

/-- The base-256 digits of a number below `2 ^ 64` sum up to it. -/
theorem sum_digits {v : ℕ} (hv : v < 2 ^ 64) :
    v / 256 ^ 0 % 256 + 256 * (v / 256 ^ 1 % 256) +
      256 ^ 2 * (v / 256 ^ 2 % 256) + 256 ^ 3 * (v / 256 ^ 3 % 256) +
      256 ^ 4 * (v / 256 ^ 4 % 256) + 256 ^ 5 * (v / 256 ^ 5 % 256) +
      256 ^ 6 * (v / 256 ^ 6 % 256) + 256 ^ 7 * (v / 256 ^ 7 % 256) = v := by
  omega

@[simp] theorem decode_encode (x : Int64) : decode (encode x) = x := by
  have hdigit : ∀ j : Fin 8, (encode x j).toNat =
      x.toUInt64.toNat / 256 ^ (j : ℕ) % 256 := by
    intro j
    exact UInt8.toNat_ofNat'
  have hsum := sum_digits x.toUInt64.toNat_lt
  have hword : Int64.ofNat x.toUInt64.toNat = x := by
    apply Int64.toBitVec.inj
    exact (BitVec.ofNat_toNat 64 x.toBitVec).trans (BitVec.setWidth_eq _)
  unfold decode
  simp only [hdigit]
  exact (congrArg Int64.ofNat hsum).trans hword

variable {n : ℕ}

/-- A word fills a buffer of eight bytes. -/
theorem fits : 0 + 8 ≤ 8 := Nat.le_refl 8

/-- The word stored at byte position `pos` of a buffer. -/
def load (buf : Fin n → UInt8) (pos : ℕ) (h : pos + 8 ≤ n) : Int64 :=
  decode fun j => buf ⟨pos + j, by omega⟩

/-- The buffer with a word stored at byte position `pos`. -/
def store (buf : Fin n → UInt8) (pos : ℕ) (x : Int64) : Fin n → UInt8 :=
  fun i => if h : pos ≤ i ∧ (i : ℕ) < pos + 8
    then encode x ⟨i - pos, by omega⟩ else buf i

@[simp] theorem load_store_self (buf : Fin n → UInt8) (pos : ℕ)
    (h : pos + 8 ≤ n) (x : Int64) : load (store buf pos x) pos h = x := by
  have hbytes : (fun j : Fin 8 => store buf pos x ⟨pos + j, by omega⟩) =
      encode x := by
    funext j
    rw [store, dif_pos (by constructor <;> simp)]
    exact congrArg (encode x) (Fin.ext (Nat.add_sub_cancel_left pos j))
  rw [load, hbytes, decode_encode]

/-- Words at disjoint positions do not disturb each other. -/
theorem load_store_of_disjoint (buf : Fin n → UInt8) {pos pos' : ℕ}
    (h : pos' + 8 ≤ n) (x : Int64)
    (hdisjoint : pos' + 8 ≤ pos ∨ pos + 8 ≤ pos') :
    load (store buf pos x) pos' h = load buf pos' h := by
  refine congrArg decode (funext fun j => ?_)
  exact dif_neg (by simp only []; omega)

/-- A second store at a position hides the first. -/
theorem store_store_self (buf : Fin n → UInt8) (pos : ℕ) (x y : Int64) :
    store (store buf pos x) pos y = store buf pos y := by
  funext i
  by_cases hi : pos ≤ i ∧ (i : ℕ) < pos + 8
  · simp only [store, dif_pos hi]
  · simp only [store, dif_neg hi]

/-- Stores at disjoint positions commute. -/
theorem store_comm (buf : Fin n → UInt8) {pos pos' : ℕ} (x y : Int64)
    (hdisjoint : pos' + 8 ≤ pos ∨ pos + 8 ≤ pos') :
    store (store buf pos x) pos' y = store (store buf pos' y) pos x := by
  funext i
  by_cases hi : pos ≤ i ∧ (i : ℕ) < pos + 8
  · have hi' : ¬(pos' ≤ i ∧ (i : ℕ) < pos' + 8) := by omega
    simp only [store, dif_pos hi, dif_neg hi']
  · simp only [store, dif_neg hi]

/-- The buffer once the first `m` bytes of another one have been written over
it. -/
def overlay (old new : Fin n → UInt8) (m : ℕ) : Fin n → UInt8 :=
  fun i => if (i : ℕ) < m then new i else old i

theorem overlay_all (old new : Fin n → UInt8) : overlay old new n = new :=
  funext fun i => if_pos i.isLt

theorem overlay_zero (old new : Fin n → UInt8) : overlay old new 0 = old :=
  funext fun i => if_neg (Nat.not_lt_zero i)

/-- A word that has been written as a whole. -/
theorem load_overlay_new (old new : Fin n → UInt8) {m pos : ℕ}
    (h : pos + 8 ≤ n) (hm : pos + 8 ≤ m) :
    load (overlay old new m) pos h = load new pos h :=
  congrArg decode (funext fun j => if_pos (by simp only []; omega))

/-- A word that has not been reached. -/
theorem load_overlay_old (old new : Fin n → UInt8) {m pos : ℕ}
    (h : pos + 8 ≤ n) (hm : m ≤ pos) :
    load (overlay old new m) pos h = load old pos h :=
  congrArg decode (funext fun j => if_neg (by simp only []; omega))

/-- A word that neither buffer changes. -/
theorem load_overlay_store (buf : Fin n → UInt8) {m pos pos' : ℕ}
    (h : pos' + 8 ≤ n) (x : Int64)
    (hdisjoint : pos' + 8 ≤ pos ∨ pos + 8 ≤ pos') :
    load (overlay buf (store buf pos x) m) pos' h = load buf pos' h := by
  refine congrArg decode (funext fun j => ?_)
  rw [overlay]
  split
  · exact dif_neg (by simp only []; omega)
  · rfl

/-- The first byte of a word. -/
theorem toNat_load_mod (buf : Fin n → UInt8) (pos : ℕ) (h : pos + 8 ≤ n) :
    (load buf pos h).toUInt64.toNat % 256 =
      (buf ⟨pos, by omega⟩).toNat := by
  have hword : ∀ v, (Int64.ofNat v).toUInt64.toNat = v % 2 ^ 64 :=
    fun v => rfl
  have hbyte := (buf ⟨pos, by omega⟩).toNat_lt
  simp only [load, decode, hword, Fin.val_zero, Nat.add_zero]
  omega

/-- The word of a buffer of zeros is zero. -/
@[simp] theorem load_zero (pos : ℕ) (h : pos + 8 ≤ n) :
    load (fun _ : Fin n => 0) pos h = 0 := by
  simp [load, decode]

end Words

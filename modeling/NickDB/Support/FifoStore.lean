import Mathlib.Data.List.Nodup
import Mathlib.Logic.Function.Basic

/-!
# A store with first-in first-out reuse

The abstract purpose of a page store: numbered cells, of which cell 0 is
reserved, a queue of the cells that were given back, and the contents of the
cells in use.  An allocation reuses the cell given back longest ago and extends
the store only when no cell is waiting.

The type carries its well-formedness: a cell other than cell 0 is either in use
or waiting, and never both.
-/

/-- A store of cells with values in `β`. -/
structure FifoStore (β : Type*) where
  size : ℕ
  queue : List ℕ
  contents : ℕ → Option β
  size_pos : 1 ≤ size
  queue_nodup : queue.Nodup
  covers : ∀ k, (1 ≤ k ∧ k < size) ↔ (k ∈ queue ∨ (contents k).isSome)
  separate : ∀ k ∈ queue, contents k = none

namespace FifoStore

variable {β : Type*}

/-- The store of the reserved cell alone. -/
def initial : FifoStore β where
  size := 1
  queue := []
  contents := fun _ => none
  size_pos := Nat.le_refl 1
  queue_nodup := List.nodup_nil
  covers := by
    intro k
    simp
    omega
  separate := by simp

/-- The cell is in use. -/
def InUse (s : FifoStore β) (k : ℕ) : Prop := (s.contents k).isSome

theorem InUse.bounds {s : FifoStore β} {k : ℕ} (h : s.InUse k) :
    1 ≤ k ∧ k < s.size :=
  (s.covers k).mpr (Or.inr h)

theorem InUse.not_mem_queue {s : FifoStore β} {k : ℕ} (h : s.InUse k) :
    k ∉ s.queue := by
  intro hk
  rw [InUse, s.separate k hk] at h
  cases h

/-- Reuse the cell that has waited longest. -/
def reuse (s : FifoStore β) {k : ℕ} {rest : List ℕ}
    (h : s.queue = k :: rest) (value : β) : FifoStore β where
  size := s.size
  queue := rest
  contents := Function.update s.contents k (some value)
  size_pos := s.size_pos
  queue_nodup := by
    have hnodup := s.queue_nodup
    rw [h] at hnodup
    exact (List.nodup_cons.mp hnodup).2
  covers := by
    intro j
    rw [s.covers j, h, List.mem_cons]
    by_cases hjk : j = k
    · subst hjk
      simp
    · simp [hjk]
  separate := by
    have hnodup := s.queue_nodup
    rw [h] at hnodup
    intro j hj
    have hjk : j ≠ k := by
      rintro rfl
      exact (List.nodup_cons.mp hnodup).1 hj
    rw [Function.update_of_ne hjk]
    exact s.separate j (h ▸ List.mem_cons_of_mem k hj)

/-- Add a cell while none is waiting. -/
def extend (s : FifoStore β) (h : s.queue = []) (value : β) :
    FifoStore β where
  size := s.size + 1
  queue := []
  contents := Function.update s.contents s.size (some value)
  size_pos := Nat.le_add_left 1 s.size
  queue_nodup := List.nodup_nil
  covers := by
    intro j
    have hcovers := s.covers j
    rw [h] at hcovers
    have hpos := s.size_pos
    by_cases hj : j = s.size
    · subst hj
      simp [hpos]
    · simp only [List.not_mem_nil, false_or] at hcovers ⊢
      rw [Function.update_of_ne hj, ← hcovers]
      omega
  separate := by simp

/-- Give a cell in use back; it waits behind the others. -/
def giveBack (s : FifoStore β) {k : ℕ} (h : s.InUse k) : FifoStore β where
  size := s.size
  queue := s.queue ++ [k]
  contents := Function.update s.contents k none
  size_pos := s.size_pos
  queue_nodup := by
    refine List.Nodup.append s.queue_nodup (List.nodup_singleton k) ?_
    intro j hj hjk
    obtain rfl := List.mem_singleton.mp hjk
    exact h.not_mem_queue hj
  covers := by
    intro j
    rw [s.covers j, List.mem_append, List.mem_singleton]
    by_cases hjk : j = k
    · subst hjk
      have hsome : (s.contents j).isSome := h
      simp [hsome]
    · simp [hjk]
  separate := by
    intro j hj
    by_cases hjk : j = k
    · subst hjk
      exact Function.update_self j none s.contents
    · rw [Function.update_of_ne hjk]
      rcases List.mem_append.mp hj with hqueue | hsingle
      · exact s.separate j hqueue
      · exact absurd (List.mem_singleton.mp hsingle) hjk

/-- Overwrite a cell in use. -/
def assign (s : FifoStore β) {k : ℕ} (h : s.InUse k) (value : β) :
    FifoStore β where
  size := s.size
  queue := s.queue
  contents := Function.update s.contents k (some value)
  size_pos := s.size_pos
  queue_nodup := s.queue_nodup
  covers := by
    intro j
    rw [s.covers j]
    by_cases hjk : j = k
    · subst hjk
      have hsome : (s.contents j).isSome := h
      simp [hsome]
    · simp [hjk]
  separate := by
    intro j hj
    have hjk : j ≠ k := by
      rintro rfl
      exact h.not_mem_queue hj
    rw [Function.update_of_ne hjk]
    exact s.separate j hj

@[simp] theorem contents_reuse (s : FifoStore β) {k : ℕ} {rest : List ℕ}
    (h : s.queue = k :: rest) (value : β) :
    (s.reuse h value).contents =
      Function.update s.contents k (some value) := rfl

@[simp] theorem contents_extend (s : FifoStore β) (h : s.queue = [])
    (value : β) :
    (s.extend h value).contents =
      Function.update s.contents s.size (some value) := rfl

@[simp] theorem contents_giveBack (s : FifoStore β) {k : ℕ}
    (h : s.InUse k) :
    (s.giveBack h).contents = Function.update s.contents k none := rfl

@[simp] theorem contents_assign (s : FifoStore β) {k : ℕ} (h : s.InUse k)
    (value : β) :
    (s.assign h value).contents =
      Function.update s.contents k (some value) := rfl

/-- What a client asks of the store and is told by it. -/
inductive Event (β : Type*)
  | alloc (value : β) (k : ℕ)
  | free (k : ℕ)
  | get (k : ℕ) (value : β)
  | put (k : ℕ) (value : β)

/-- The steps of the store. -/
inductive Step : FifoStore β → Event β → FifoStore β → Prop
  | reuse {s : FifoStore β} {k : ℕ} {rest : List ℕ}
      (h : s.queue = k :: rest) (value : β) :
      Step s (.alloc value k) (s.reuse h value)
  | extend {s : FifoStore β} (h : s.queue = []) (value : β) :
      Step s (.alloc value s.size) (s.extend h value)
  | free {s : FifoStore β} {k : ℕ} (h : s.InUse k) :
      Step s (.free k) (s.giveBack h)
  | get {s : FifoStore β} {k : ℕ} {value : β}
      (h : s.contents k = some value) :
      Step s (.get k value) s
  | put {s : FifoStore β} {k : ℕ} (h : s.InUse k) (value : β) :
      Step s (.put k value) (s.assign h value)

end FifoStore

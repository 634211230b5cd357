import NickDB.Support.Runs
import Mathlib.Logic.Function.Basic

/-!
# Named stores with handles

The abstract purpose of an interface that creates, opens, closes and removes
stores by name and works on them through handles: which store each name is for,
what the stores hold, and on which store each handle is open.  A store that has
lost its name, because it was removed, can still be used through the handles
that are open on it.

What a single store holds and does is left open: stores have values in `γ`, a
new store holds `initial`, and `inner` is the step relation of one store.
-/

open Runs

/-- Stores numbered in the order of their creation.  Names and handles are for
stores that exist, and no store has two names. -/
structure NamedStores (ν η γ : Type*) where
  names : ν → Option ℕ
  stores : ℕ → Option γ
  handles : η → Option ℕ
  next : ℕ
  fresh : ∀ k, next ≤ k → stores k = none
  named : ∀ n k, names n = some k → (stores k).isSome
  held : ∀ h k, handles h = some k → (stores k).isSome
  distinct : ∀ m n k, names m = some k → names n = some k → m = n

namespace NamedStores

variable {ν η γ ε : Type*}

/-- No store yet; the first one gets the number `next`. -/
def empty (next : ℕ) : NamedStores ν η γ where
  names := fun _ => none
  stores := fun _ => none
  handles := fun _ => none
  next := next
  fresh := fun _ _ => rfl
  named := fun _ _ h => nomatch h
  held := fun _ _ h => nomatch h
  distinct := fun _ _ _ h => nomatch h

section Operations

variable (s : NamedStores ν η γ) {n : ν} {h : η} {k : ℕ}

theorem ne_next (hk : (s.stores k).isSome) : k ≠ s.next := by
  rintro rfl
  rw [s.fresh s.next (le_refl s.next)] at hk
  cases hk

theorem lt_next (hk : (s.stores k).isSome) : k < s.next := by
  by_contra hlt
  rw [s.fresh k (not_lt.mp hlt)] at hk
  cases hk

/-- Another value in a store that exists. -/
def replace (hk : (s.stores k).isSome) (value : γ) : NamedStores ν η γ where
  names := s.names
  stores := Function.update s.stores k (some value)
  handles := s.handles
  next := s.next
  fresh := by
    intro j hj
    rw [Function.update_of_ne (ne_of_gt (lt_of_lt_of_le (s.lt_next hk) hj))]
    exact s.fresh j hj
  named := by
    intro m j hj
    rw [Function.update_apply]
    split
    · rfl
    · exact s.named m j hj
  held := by
    intro g j hj
    rw [Function.update_apply]
    split
    · rfl
    · exact s.held g j hj
  distinct := s.distinct

theorem isSome_replace (hk : (s.stores k).isSome) (value : γ) :
    ((s.replace hk value).stores k).isSome := by
  simp [replace]

variable [DecidableEq ν]

/-- A new store under a name. -/
def extend (n : ν) (value : γ) : NamedStores ν η γ where
  names := Function.update s.names n (some s.next)
  stores := Function.update s.stores s.next (some value)
  handles := s.handles
  next := s.next + 1
  fresh := by
    intro j hj
    rw [Function.update_of_ne (by omega)]
    exact s.fresh j (by omega)
  named := by
    intro m j hj
    rw [Function.update_apply] at hj ⊢
    split
    · rfl
    next hne =>
      split at hj
      · exact absurd (Option.some.inj hj).symm hne
      · exact s.named m j hj
  held := by
    intro g j hj
    rw [Function.update_of_ne (s.ne_next (s.held g j hj))]
    exact s.held g j hj
  distinct := by
    intro l m j hl hm
    rw [Function.update_apply] at hl hm
    split at hl <;> split at hm
    next hln hmn => exact hln.trans hmn.symm
    next =>
      exact absurd (Option.some.inj hl).symm (s.ne_next (s.named m j hm))
    next =>
      exact absurd (Option.some.inj hm).symm (s.ne_next (s.named l j hl))
    next => exact s.distinct l m j hl hm

theorem isSome_extend (n : ν) (value : γ) :
    ((s.extend n value).stores s.next).isSome := by
  simp [extend]

/-- The name is for no store any more. -/
def unlink (n : ν) : NamedStores ν η γ where
  names := Function.update s.names n none
  stores := s.stores
  handles := s.handles
  next := s.next
  fresh := s.fresh
  named := by
    intro m j hj
    rw [Function.update_apply] at hj
    split at hj
    · cases hj
    · exact s.named m j hj
  held := s.held
  distinct := by
    intro l m j hl hm
    rw [Function.update_apply] at hl hm
    split at hl
    · cases hl
    · split at hm
      · cases hm
      · exact s.distinct l m j hl hm

variable [DecidableEq η]

/-- The handle is now open on a store that exists. -/
def bind (h : η) (hk : (s.stores k).isSome) : NamedStores ν η γ where
  names := s.names
  stores := s.stores
  handles := Function.update s.handles h (some k)
  next := s.next
  fresh := s.fresh
  named := s.named
  held := by
    intro g j hj
    rw [Function.update_apply] at hj
    split at hj
    · obtain rfl := Option.some.inj hj
      exact hk
    · exact s.held g j hj
  distinct := s.distinct

/-- The handle is open on no store. -/
def closed (h : η) : NamedStores ν η γ where
  names := s.names
  stores := s.stores
  handles := Function.update s.handles h none
  next := s.next
  fresh := s.fresh
  named := s.named
  held := by
    intro g j hj
    rw [Function.update_apply] at hj
    split at hj
    · cases hj
    · exact s.held g j hj
  distinct := s.distinct

end Operations

/-- What a client asks for.  The system grants a call that names a file or
refuses it, and the client is told whether the call has succeeded. -/
inductive Event (ν η ε : Type*)
  | create (h : η) (n : ν) (granted succeeded : Bool)
  | reopen (h : η) (n : ν) (granted succeeded : Bool)
  | close (h : η)
  | remove (n : ν) (granted succeeded : Bool)
  | call (h : η) (event : ε)

variable [DecidableEq ν] [DecidableEq η]

/-- The steps of the stores. -/
inductive Step (initial : γ) (inner : γ → ε → γ → Prop) :
    NamedStores ν η γ → Event ν η ε → NamedStores ν η γ → Prop
  | createNew {s : NamedStores ν η γ} {n : ν} (h : η) (hn : s.names n = none) :
      Step initial inner s (.create h n true true)
        ((s.extend n initial).bind h (s.isSome_extend n initial))
  | createOver {s : NamedStores ν η γ} {n : ν} {k : ℕ} (h : η)
      (hn : s.names n = some k) :
      Step initial inner s (.create h n true true)
        ((s.replace (s.named n k hn) initial).bind h
          (s.isSome_replace (s.named n k hn) initial))
  | createRefused {s : NamedStores ν η γ} (h : η) (n : ν) :
      Step initial inner s (.create h n false false) (s.closed h)
  | reopen {s : NamedStores ν η γ} {n : ν} {k : ℕ} (h : η)
      (hn : s.names n = some k) :
      Step initial inner s (.reopen h n true true) (s.bind h (s.named n k hn))
  | reopenMissing {s : NamedStores ν η γ} {n : ν} (h : η) (granted : Bool)
      (hn : s.names n = none) :
      Step initial inner s (.reopen h n granted false) (s.closed h)
  | reopenRefused {s : NamedStores ν η γ} (h : η) (n : ν) :
      Step initial inner s (.reopen h n false false) (s.closed h)
  | close {s : NamedStores ν η γ} {h : η} {k : ℕ} (hh : s.handles h = some k) :
      Step initial inner s (.close h) (s.closed h)
  | remove {s : NamedStores ν η γ} {n : ν} {k : ℕ} (hn : s.names n = some k) :
      Step initial inner s (.remove n true true) (s.unlink n)
  | removeMissing {s : NamedStores ν η γ} {n : ν} (granted : Bool)
      (hn : s.names n = none) :
      Step initial inner s (.remove n granted false) s
  | removeRefused {s : NamedStores ν η γ} (n : ν) :
      Step initial inner s (.remove n false false) s
  | call {s : NamedStores ν η γ} {h : η} {k : ℕ} {c d : γ} {e : ε}
      (hh : s.handles h = some k) (hc : s.stores k = some c)
      (hinner : inner c e d) :
      Step initial inner s (.call h e) (s.replace (s.held h k hh) d)

/-! ## What a step leaves alone -/

/-- The event does not create or remove the name, and a call on the store `k`
meets the guard. -/
def Spares (s : NamedStores ν η γ) (n : ν) (k : ℕ) (guard : ε → Prop) :
    Event ν η ε → Prop
  | .create _ m _ _ => m ≠ n
  | .remove m _ _ => m ≠ n
  | .call h e => s.handles h = some k → guard e
  | _ => True

variable {initial : γ} {inner : γ → ε → γ → Prop} {s t : NamedStores ν η γ}
  {event : Event ν η ε} {n : ν} {k : ℕ} {guard : ε → Prop} {P : γ → Prop}

/-- A named store with a property that calls which meet the guard preserve. -/
def Keeps (s : NamedStores ν η γ) (n : ν) (k : ℕ) (P : γ → Prop) : Prop :=
  s.names n = some k ∧ ∃ c, s.stores k = some c ∧ P c

theorem Keeps.step (hinner : ∀ c e d, P c → guard e → inner c e d → P d)
    (hkeeps : s.Keeps n k P) (hspares : s.Spares n k guard event)
    (hstep : Step initial inner s event t) : t.Keeps n k P := by
  obtain ⟨hn, c, hc, hP⟩ := hkeeps
  have hsome : (s.stores k).isSome := Option.isSome_of_eq_some hc
  cases hstep with
  | @createNew m h hm =>
      refine ⟨(Function.update_of_ne (Ne.symm hspares) _ _).trans hn, c, ?_, hP⟩
      exact (Function.update_of_ne (s.ne_next hsome) _ _).trans hc
  | @createOver m j h hm =>
      have hjk : k ≠ j := by
        rintro rfl
        exact hspares (s.distinct m n k hm hn)
      exact ⟨hn, c, (Function.update_of_ne hjk _ _).trans hc, hP⟩
  | createRefused h m => exact ⟨hn, c, hc, hP⟩
  | reopen h hm => exact ⟨hn, c, hc, hP⟩
  | reopenMissing h granted hm => exact ⟨hn, c, hc, hP⟩
  | reopenRefused h m => exact ⟨hn, c, hc, hP⟩
  | close hh => exact ⟨hn, c, hc, hP⟩
  | remove hm =>
      exact ⟨(Function.update_of_ne (Ne.symm hspares) _ _).trans hn, c, hc, hP⟩
  | removeMissing granted hm => exact ⟨hn, c, hc, hP⟩
  | removeRefused m => exact ⟨hn, c, hc, hP⟩
  | @call h j c' d e hh hc' hstep =>
      by_cases hjk : j = k
      · subst hjk
        obtain rfl := Option.some.inj (hc.symm.trans hc')
        exact ⟨hn, d, Function.update_self _ _ _,
          hinner c e d hP (hspares hh) hstep⟩
      · exact ⟨hn, c, (Function.update_of_ne (Ne.symm hjk) _ _).trans hc, hP⟩

end NamedStores

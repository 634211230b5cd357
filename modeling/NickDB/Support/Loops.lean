import Mathlib.Data.Nat.Notation

/-!
# While loops

A loop over a state, whose test and body may be undefined.  The loop is run for
a number of turns and returns the states its test was evaluated in, so that
what a loop has looked at can be told from what it returns.  It ends if it ends
for some number of turns; the lemmas unfold a loop that ends by one turn.
-/

namespace Loops

variable {σ : Type*}

/-- `while (test) body`, for at most `turns` evaluations of the test: the states
in which the test was evaluated, and the last one of them.  There is no result
if the turns do not suffice, or the test or the body is undefined. -/
def whileLoop (test : σ → Option Bool) (body : σ → Option σ) :
    ℕ → σ → Option (List σ × σ)
  | 0, _ => none
  | turns + 1, state =>
      match test state with
      | none => none
      | some false => some ([state], state)
      | some true =>
          match body state with
          | none => none
          | some next =>
              match whileLoop test body turns next with
              | none => none
              | some (tested, last) => some (state :: tested, last)

/-- The loop ends after its test was evaluated in the states `tested`. -/
def Ends (test : σ → Option Bool) (body : σ → Option σ) (state : σ)
    (tested : List σ) (last : σ) : Prop :=
  ∃ turns, whileLoop test body turns state = some (tested, last)

variable {test : σ → Option Bool} {body : σ → Option σ} {state next last : σ}
  {tested : List σ}

/-- A loop with an undefined test does not end. -/
theorem not_ends_of_none (htest : test state = none) :
    ¬Ends test body state tested last := by
  rintro ⟨turns, h⟩
  cases turns with
  | zero => cases h
  | succ turns =>
      rw [whileLoop, htest] at h
      cases h

/-- A loop whose test is false ends at once. -/
theorem ends_of_false (htest : test state = some false) :
    Ends test body state tested last ↔ tested = [state] ∧ last = state := by
  constructor
  · rintro ⟨turns, h⟩
    cases turns with
    | zero => cases h
    | succ turns =>
        rw [whileLoop, htest] at h
        cases h
        exact ⟨rfl, rfl⟩
  · rintro ⟨rfl, rfl⟩
    exact ⟨1, by rw [whileLoop, htest]⟩

/-- A loop whose test is true ends exactly if it does from the state after the
body. -/
theorem ends_of_true (htest : test state = some true)
    (hbody : body state = some next) :
    Ends test body state tested last ↔
      ∃ rest, tested = state :: rest ∧ Ends test body next rest last := by
  constructor
  · rintro ⟨turns, h⟩
    cases turns with
    | zero => cases h
    | succ turns =>
        simp only [whileLoop, htest, hbody] at h
        cases hrest : whileLoop test body turns next with
        | none =>
            rw [hrest] at h
            cases h
        | some result =>
            rw [hrest] at h
            cases h
            exact ⟨result.1, rfl, turns, hrest⟩
  · rintro ⟨rest, rfl, turns, hrest⟩
    exact ⟨turns + 1, by simp only [whileLoop, htest, hbody, hrest]⟩

/-- A loop does not end from a state with an invariant under which the test is
true and the body, where it is defined, keeps the invariant. -/
theorem not_ends_of_invariant {I : σ → Prop}
    (htest : ∀ s, I s → test s = some true)
    (hbody : ∀ s t, I s → body s = some t → I t) (hI : I state) :
    ¬Ends test body state tested last := by
  rintro ⟨turns, h⟩
  induction turns generalizing state tested with
  | zero => cases h
  | succ turns ih =>
      simp only [whileLoop, htest state hI] at h
      split at h
      next => cases h
      next next hnext =>
        split at h
        next => cases h
        next rest last' hrest =>
          cases h
          exact ih (hbody state next hI hnext) hrest

/-- Two loops with one body end alike if, where their tests differ, the one is
undefined and the other leads to an undefined body. -/
theorem ends_congr {test' : σ → Option Bool}
    (h : ∀ s, test s = test' s ∨
      test s = none ∧ test' s = some true ∧ body s = none) :
    Ends test body state tested last ↔ Ends test' body state tested last := by
  have hloop : ∀ turns s,
      whileLoop test body turns s = whileLoop test' body turns s := by
    intro turns
    induction turns with
    | zero => exact fun s => rfl
    | succ turns ih =>
        intro s
        rcases h s with hsame | ⟨htest, htest', hbody⟩
        · simp only [whileLoop, hsame, ih]
        · simp only [whileLoop, htest, htest', hbody]
  simp only [Ends, hloop]

/-- A loop that ends has not met a state in which its test is undefined. -/
theorem Ends.tested_defined (h : Ends test body state tested last) :
    ∀ cursor ∈ tested, test cursor ≠ none := by
  obtain ⟨turns, h⟩ := h
  induction turns generalizing state tested with
  | zero => cases h
  | succ turns ih =>
      rw [whileLoop] at h
      split at h
      next => cases h
      next htest =>
        cases h
        intro cursor hcursor
        rw [List.mem_singleton.mp hcursor, htest]
        exact Option.some_ne_none false
      next htest =>
        split at h
        next => cases h
        next next hbody =>
          split at h
          next => cases h
          next rest last hrest =>
            cases h
            intro cursor hcursor
            rcases List.mem_cons.mp hcursor with rfl | hcursor
            · rw [htest]
              exact Option.some_ne_none true
            · exact ih hrest cursor hcursor

end Loops

import Mathlib.Data.List.Basic
import Mathlib.Order.Bounds.Basic
import Mathlib.Order.Lattice

/-!
# Runs of labelled transition systems

A transition system is a relation `step s e t`: in state `s` the event `e` may
lead to state `t`.  An event carries what the environment supplies and what it
observes, so a run is a state, a list of events and a state.  This module has
the rules the developments above it use: an invariant of single steps holds
after every run, a step-by-step simulation extends to runs, and a property that
single steps have under a guard, or exactly under it, holds of all steps of a
run if, or exactly if, all of them meet the guard.  A value that every step
raises to a measure of the new state is the greatest measure seen on the run.
-/

namespace Runs

variable {σ τ ε : Type*}

/-- The finite runs of a transition system. -/
inductive Run (step : σ → ε → σ → Prop) : σ → List ε → σ → Prop
  | nil (s : σ) : Run step s [] s
  | cons {s t u : σ} {e : ε} {es : List ε} :
      step s e t → Run step t es u → Run step s (e :: es) u

/-- The steps that meet a guard on the state before them. -/
def Guarded (step : σ → ε → σ → Prop) (guard : σ → ε → Prop) :
    σ → ε → σ → Prop :=
  fun s e t => guard s e ∧ step s e t

/-- The steps that have a property of the event and the states around it. -/
def Ensuring (step : σ → ε → σ → Prop) (property : σ → ε → σ → Prop) :
    σ → ε → σ → Prop :=
  fun s e t => step s e t ∧ property s e t

/-- Every event of the list meets `guard` in every state its prefix leads to. -/
def Admissible (step : σ → ε → σ → Prop) (guard : σ → ε → Prop)
    (s : σ) (es : List ε) : Prop :=
  ∀ front e back t, es = front ++ e :: back → Run step s front t → guard t e

variable {step : σ → ε → σ → Prop}

theorem run_nil_iff {s t : σ} : Run step s [] t ↔ s = t := by
  constructor
  · rintro ⟨⟩
    rfl
  · rintro rfl
    exact .nil s

theorem run_cons_iff {s u : σ} {e : ε} {es : List ε} :
    Run step s (e :: es) u ↔ ∃ t, step s e t ∧ Run step t es u := by
  constructor
  · rintro ⟨⟩
    rename_i t hstep hrun
    exact ⟨t, hstep, hrun⟩
  · rintro ⟨t, hstep, hrun⟩
    exact .cons hstep hrun

theorem run_append_iff {s u : σ} {xs ys : List ε} :
    Run step s (xs ++ ys) u ↔ ∃ t, Run step s xs t ∧ Run step t ys u := by
  induction xs generalizing s with
  | nil => simp [run_nil_iff]
  | cons e es ih =>
      simp only [List.cons_append, run_cons_iff, ih]
      constructor
      · rintro ⟨t, hstep, v, hes, hys⟩
        exact ⟨v, ⟨t, hstep, hes⟩, hys⟩
      · rintro ⟨v, ⟨t, hstep, hes⟩, hys⟩
        exact ⟨t, hstep, v, hes, hys⟩

/-- What every step preserves, every run preserves. -/
theorem Run.invariant {I : σ → Prop}
    (hstep : ∀ s e t, I s → step s e t → I t)
    {s t : σ} {es : List ε} (hrun : Run step s es t) (hs : I s) : I t := by
  induction hrun with
  | nil s => exact hs
  | cons h _ ih => exact ih (hstep _ _ _ hs h)

/-- A run of fewer steps is a run. -/
theorem Run.mono {step' : σ → ε → σ → Prop}
    (hstep : ∀ s e t, step s e t → step' s e t) {s t : σ} {es : List ε}
    (hrun : Run step s es t) : Run step' s es t := by
  induction hrun with
  | nil s => exact .nil s
  | cons h _ ih => exact .cons (hstep _ _ _ h) ih

/-- What every step shows of its event holds of all events of a run. -/
theorem Run.forall_mem {P : ε → Prop} (hstep : ∀ s e t, step s e t → P e)
    {s t : σ} {es : List ε} (hrun : Run step s es t) : ∀ e ∈ es, P e := by
  induction hrun with
  | nil s => simp
  | cons h _ ih =>
      intro e he
      rcases List.mem_cons.mp he with rfl | he
      · exact hstep _ _ _ h
      · exact ih e he

/-- What the steps of some events preserve, runs over such events preserve. -/
theorem Run.invariant_of_forall_mem {I : σ → Prop} {P : ε → Prop}
    (hstep : ∀ s e t, I s → P e → step s e t → I t) {s t : σ} {es : List ε}
    (hrun : Run step s es t) (hP : ∀ e ∈ es, P e) (hs : I s) : I t := by
  induction hrun with
  | nil s => exact hs
  | @cons s t u e es h _ ih =>
      have ht : I t := hstep _ _ _ hs (hP e List.mem_cons_self) h
      exact ih (fun e' he' => hP e' (List.mem_cons_of_mem e he')) ht

theorem admissible_nil {guard : σ → ε → Prop} {s : σ} :
    Admissible step guard s [] := by
  intro front e back t heq
  simp at heq

theorem admissible_cons {guard : σ → ε → Prop} {s : σ} {e : ε} {es : List ε}
    (hs : guard s e) (hrest : ∀ t, step s e t → Admissible step guard t es) :
    Admissible step guard s (e :: es) := by
  intro front e' back u heq hrun
  cases front with
  | nil =>
      obtain ⟨rfl, -⟩ := List.cons_eq_cons.mp heq
      obtain rfl := run_nil_iff.mp hrun
      exact hs
  | cons first front =>
      obtain ⟨rfl, hes⟩ := List.cons_eq_cons.mp heq
      obtain ⟨t, ht, hrun⟩ := run_cons_iff.mp hrun
      exact hrest t ht front e' back u hes hrun

/-- A simulation of single steps, needed only for admissible events, extends
to runs. -/
theorem Run.simulate {astep : τ → ε → τ → Prop} {guard : τ → ε → Prop}
    {R : σ → τ → Prop}
    (hsim : ∀ s a e t, R s a → guard a e → step s e t →
      ∃ b, astep a e b ∧ R t b)
    {s t : σ} {a : τ} {es : List ε} (hrun : Run step s es t) (hR : R s a)
    (hadm : Admissible astep guard a es) :
    ∃ b, Run astep a es b ∧ R t b := by
  induction hrun generalizing a with
  | nil s => exact ⟨a, .nil a, hR⟩
  | @cons s t u e es h _ ih =>
      obtain ⟨b, hab, htb⟩ := hsim s a e t hR
        (hadm [] e es a rfl (.nil a)) h
      obtain ⟨c, hbc, huc⟩ := ih htb fun front e' back t' heq hfront =>
        hadm (e :: front) e' back t' (by rw [heq]; rfl) (.cons hab hfront)
      exact ⟨c, .cons hab hbc, huc⟩

/-- If a step out of a state with the invariant that meets the guard has a
property and keeps the invariant, then all steps of a guarded run have the
property. -/
theorem Run.ensuring {I : σ → Prop} {guard : σ → ε → Prop}
    {property : σ → ε → σ → Prop}
    (hstep : ∀ s e t, I s → guard s e → step s e t → property s e t ∧ I t)
    {s t : σ} {es : List ε} (hrun : Run (Guarded step guard) s es t)
    (hs : I s) : Run (Ensuring step property) s es t := by
  induction hrun with
  | nil s => exact .nil s
  | cons h _ ih =>
      obtain ⟨hproperty, ht⟩ := hstep _ _ _ hs h.1 h.2
      exact .cons ⟨h.2, hproperty⟩ (ih ht)

/-- If a step out of a state with the invariant has a property exactly when it
meets the guard, and the property brings the invariant back, then all steps of
a run have the property exactly when all of them meet the guard. -/
theorem Run.ensuring_iff_guarded {I : σ → Prop} {guard : σ → ε → Prop}
    {property : σ → ε → σ → Prop}
    (hstep : ∀ s e t, I s → step s e t → (property s e t ↔ guard s e))
    (hnext : ∀ s e t, I s → step s e t → property s e t → I t)
    {s t : σ} {es : List ε} (hs : I s) :
    Run (Ensuring step property) s es t ↔ Run (Guarded step guard) s es t := by
  induction es generalizing s with
  | nil => simp only [run_nil_iff]
  | cons e es ih =>
      simp only [run_cons_iff]
      constructor
      · rintro ⟨u, ⟨h, hproperty⟩, hrest⟩
        have hu : I u := hnext s e u hs h hproperty
        exact ⟨u, ⟨(hstep s e u hs h).mp hproperty, h⟩, (ih hu).mp hrest⟩
      · rintro ⟨u, ⟨hguard, h⟩, hrest⟩
        have hproperty := (hstep s e u hs h).mpr hguard
        have hu : I u := hnext s e u hs h hproperty
        exact ⟨u, ⟨h, hproperty⟩, (ih hu).mpr hrest⟩

/-! ## Greatest values along a run -/

/-- The run from `s` over `es` to `t` comes through `u`. -/
def Visits (step : σ → ε → σ → Prop) (s : σ) (es : List ε) (t u : σ) : Prop :=
  ∃ front back, es = front ++ back ∧ Run step s front u ∧ Run step u back t

theorem visits_cons {s t u v : σ} {e : ε} {es : List ε} (h : step s e t)
    (hvisits : Visits step t es u v) : Visits step s (e :: es) u v := by
  obtain ⟨front, back, rfl, hfront, hback⟩ := hvisits
  exact ⟨e :: front, back, rfl, .cons h hfront, hback⟩

variable {α : Type*} [LinearOrder α]

/-- A value that starts as the measure of the first state, and that each step
raises to the measure of the state it leads to, is at the end the greatest
measure of the states of the run. -/
theorem Run.isGreatest_peak {I : σ → Prop} {m p : σ → α}
    (hstep : ∀ s e t, I s → step s e t →
      I t ∧ p t = max (p s) (m t))
    (hunique : ∀ s e t u, step s e t → step s e u → t = u)
    {s t : σ} {es : List ε} (hrun : Run step s es t) (hs : I s)
    (hpeak : p s = m s) :
    IsGreatest {a | ∃ u, Visits step s es t u ∧ m u = a} (p t) := by
  -- the peak before the run may already be larger than the first measure
  suffices hgeneral : ∀ {s t : σ} {es : List ε}, Run step s es t → I s →
      m s ≤ p s → p s ≤ p t ∧
      (∀ u, Visits step s es t u → m u ≤ p t) ∧
      (p t = p s ∨ ∃ u, Visits step s es t u ∧ m u = p t) by
    obtain ⟨-, hupper, hattained⟩ := hgeneral hrun hs hpeak.ge
    constructor
    · rcases hattained with hsame | ⟨u, hu, hmeasure⟩
      · exact ⟨s, ⟨[], es, rfl, .nil s, hrun⟩, hpeak.symm.trans hsame.symm⟩
      · exact ⟨u, hu, hmeasure⟩
    · rintro a ⟨u, hu, rfl⟩
      exact hupper u hu
  intro s t es hrun
  induction hrun with
  | nil s =>
      intro _ hle
      refine ⟨le_refl _, ?_, Or.inl rfl⟩
      rintro u ⟨front, back, heq, hfront, -⟩
      obtain ⟨rfl, rfl⟩ := List.nil_eq_append_iff.mp heq
      obtain rfl := run_nil_iff.mp hfront
      exact hle
  | @cons s t u e es h hrest ih =>
      intro hs hle
      obtain ⟨ht, hmax⟩ := hstep s e t hs h
      have hst : p s ≤ p t := hmax ▸ le_max_left _ _
      have hmt : m t ≤ p t := hmax ▸ le_max_right _ _
      obtain ⟨htu, hupper, hattained⟩ := ih ht hmt
      refine ⟨hst.trans htu, ?_, ?_⟩
      · rintro v ⟨front, back, heq, hfront, hback⟩
        cases front with
        | nil =>
            obtain rfl := run_nil_iff.mp hfront
            exact (hle.trans hst).trans htu
        | cons e' front =>
            obtain ⟨rfl, rfl⟩ := List.cons_eq_cons.mp heq
            obtain ⟨w, hw, hfront⟩ := run_cons_iff.mp hfront
            obtain rfl := hunique s e t w h hw
            exact hupper v ⟨front, back, rfl, hfront, hback⟩
      · rcases hattained with hsame | ⟨v, hv, hmeasure⟩
        · rcases le_total (p s) (m t) with hle' | hle'
          · right
            refine ⟨t, visits_cons h ⟨[], es, rfl, .nil t, hrest⟩, ?_⟩
            rw [hsame, hmax, max_eq_right hle']
          · left
            rw [hsame, hmax, max_eq_left hle']
        · exact Or.inr ⟨v, visits_cons h hv, hmeasure⟩

end Runs

import Mathlib.Data.List.Basic

/-!
# Noninterference by unwinding

A system takes inputs from many parties and answers each of them. An observer
knows of an input what `seen` tells, and nothing of the inputs of others. If the
observer's view of the state determines the answers, and the inputs of others
leave the view as it is, then two runs with the same inputs of the observer give
the observer the same answers.
-/

namespace Core

variable {σ ι κ ω υ : Type*}

/-- The answers to the observer's inputs along a run. -/
def observed (step : σ → ι → σ) (out : σ → ι → ω) (seen : ι → Option κ) : σ → List ι → List ω
  | _, [] => []
  | s, i :: rest =>
    match seen i with
    | none => observed step out seen (step s i) rest
    | some _ => out s i :: observed step out seen (step s i) rest

/-- The unwinding conditions for a view of the state. -/
structure Unwinds (step : σ → ι → σ) (out : σ → ι → ω) (seen : ι → Option κ) (view : σ → υ) :
    Prop where
  /-- The inputs of others leave the view as it is. -/
  hidden : ∀ s i, seen i = none → view (step s i) = view s
  /-- The view decides what becomes of it and what is answered. -/
  visible : ∀ s t i j k, view s = view t → seen i = some k → seen j = some k →
    view (step s i) = view (step t j) ∧ out s i = out t j

variable {step : σ → ι → σ} {out : σ → ι → ω} {seen : ι → Option κ} {view : σ → υ}

/-- Inputs of others are not answered to the observer. -/
theorem observed_append_of_none {inputs : List ι} (h : ∀ i ∈ inputs, seen i = none) (s : σ)
    (rest : List ι) :
    observed step out seen s (inputs ++ rest) =
      observed step out seen (inputs.foldl step s) rest := by
  induction inputs generalizing s with
  | nil => rfl
  | cons i inputs ih =>
    rw [List.forall_mem_cons] at h
    rw [List.cons_append, observed, h.1, List.foldl_cons, ih h.2]

theorem Unwinds.view_foldl (h : Unwinds step out seen view) {inputs : List ι}
    (hinputs : ∀ i ∈ inputs, seen i = none) (s : σ) : view (inputs.foldl step s) = view s := by
  induction inputs generalizing s with
  | nil => rfl
  | cons i inputs ih =>
    rw [List.forall_mem_cons] at hinputs
    rw [List.foldl_cons, ih hinputs.2, h.hidden s i hinputs.1]

/-- Two runs that are alike for the observer answer alike. -/
theorem Unwinds.observed_eq (h : Unwinds step out seen view) {s t : σ} {inputs inputs' : List ι}
    (hview : view s = view t) (hinputs : inputs.filterMap seen = inputs'.filterMap seen) :
    observed step out seen s inputs = observed step out seen t inputs' := by
  induction inputs generalizing s t inputs' with
  | nil =>
    have hnone : ∀ i ∈ inputs', seen i = none := List.filterMap_eq_nil_iff.mp hinputs.symm
    calc observed step out seen s [] = observed step out seen (inputs'.foldl step t) [] := rfl
      _ = observed step out seen t (inputs' ++ []) := (observed_append_of_none hnone t []).symm
      _ = observed step out seen t inputs' := by rw [List.append_nil]
  | cons i rest ih =>
    cases hi : seen i with
    | none =>
      rw [List.filterMap_cons_none hi] at hinputs
      rw [observed, hi]
      exact ih ((h.hidden s i hi).trans hview) hinputs
    | some k =>
      -- The other run has the same input of the observer behind some of others.
      rw [List.filterMap_cons_some hi] at hinputs
      obtain ⟨skipped, j, rest', rfl, hskipped, hj, hrest⟩ :=
        List.filterMap_eq_cons_iff.mp hinputs.symm
      have hview' : view s = view (skipped.foldl step t) :=
        hview.trans (h.view_foldl hskipped t).symm
      obtain ⟨hnext, hout⟩ := h.visible _ _ i j k hview' hi hj
      rw [observed_append_of_none hskipped, observed, observed, hi, hj]
      simp only [hout]
      rw [ih hnext hrest.symm]

end Core

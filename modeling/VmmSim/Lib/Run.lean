import Mathlib

/-!
# Runs of a labelled machine

A machine takes labelled steps `step i s`, each of which returns the next state or halts. `Run C s t`
is a run from `s` to `t` whose steps all meet the condition `C`, a condition on the label and
the state before the step. `Run.invariant` is the induction over runs; `run_of_steps` turns the
execution of a list of labels into a run, for runs that are computed.
-/

namespace VmmSim.Lib

variable {ι σ ε : Type*}

/-- A run of `step` from `s` each of whose steps meets `C`. -/
inductive Run (step : ι → σ → Except ε σ) (C : ι → σ → Prop) (s : σ) : σ → Prop
  | refl : Run step C s s
  | step {t u : σ} (i : ι) (h : Run step C s t) (hc : C i t) (hs : step i t = .ok u) :
      Run step C s u

namespace Run

variable {step : ι → σ → Except ε σ} {C C' : ι → σ → Prop} {s t u : σ}

/-- A property of the first state that every step meeting `C` preserves holds in the last. -/
theorem invariant {P : σ → Prop} (h : Run step C s t) (hs : P s)
    (hstep : ∀ i a b, P a → C i a → step i a = .ok b → P b) : P t := by
  induction h with
  | refl => exact hs
  | step i _ hc hi ih => exact hstep i _ _ ih hc hi

theorem mono (h : Run step C s t) (hC : ∀ i a, C i a → C' i a) : Run step C' s t := by
  induction h with
  | refl => exact .refl
  | step i _ hc hi ih => exact .step i ih (hC i _ hc) hi

theorem trans (h : Run step C s t) (h' : Run step C t u) : Run step C s u := by
  induction h' with
  | refl => exact h
  | step i _ hc hi ih => exact .step i ih hc hi

/-- A run whose steps meet two conditions, from a run whose steps meet the first and an
invariant under which every step meets the second. -/
theorem strengthen {P : σ → Prop} (h : Run step C s t) (hs : P s)
    (hstep : ∀ i a b, P a → C i a → step i a = .ok b → P b) (hC : ∀ i a, P a → C i a → C' i a) :
    Run step C' s t := by
  suffices P t ∧ Run step C' s t from this.2
  induction h with
  | refl => exact ⟨hs, .refl⟩
  | step i _ hc hi ih => exact ⟨hstep i _ _ ih.1 hc hi, .step i ih.2 (hC i _ ih.1 hc) hi⟩

end Run

/-- Take the steps of a list of labels in order. -/
def runSteps (step : ι → σ → Except ε σ) : List ι → σ → Except ε σ
  | [], s => .ok s
  | i :: is, s => match step i s with
    | .ok t => runSteps step is t
    | .error e => .error e

theorem runSteps_append (step : ι → σ → Except ε σ) (is js : List ι) (s : σ) :
    runSteps step (is ++ js) s =
      match runSteps step is s with
      | .ok t => runSteps step js t
      | .error e => .error e := by
  induction is generalizing s with
  | nil => rfl
  | cons i is ih =>
    simp only [List.cons_append, runSteps]
    split
    · exact ih _
    · rfl

/-- An executed list of labels is a run, when each of them meets `C` wherever it is taken. -/
theorem run_of_steps {step : ι → σ → Except ε σ} {C : ι → σ → Prop} {is : List ι} {s t : σ}
    (h : runSteps step is s = .ok t) (hC : ∀ i ∈ is, ∀ a, C i a) : Run step C s t := by
  induction is generalizing s with
  | nil =>
    cases h
    exact .refl
  | cons i is ih =>
    simp only [runSteps] at h
    split at h
    · rename_i a ha
      have first : Run step C s a := .step i .refl (hC i (by simp) s) ha
      exact first.trans (ih h fun j hj => hC j (by simp [hj]))
    · cases h

/-- Take a step only where a check passes. -/
def checked (check : ι → σ → Bool) (e : ε) (step : ι → σ → Except ε σ) (i : ι) (s : σ) :
    Except ε σ :=
  if check i s then step i s else .error e

/-- An executed list of checked labels is a run whose steps pass the check. -/
theorem run_of_checked {step : ι → σ → Except ε σ} {check : ι → σ → Bool} {e : ε} {is : List ι}
    {s t : σ} (h : runSteps (checked check e step) is s = .ok t) :
    Run step (fun i a => check i a = true) s t := by
  induction is generalizing s with
  | nil =>
    cases h
    exact .refl
  | cons i is ih =>
    simp only [runSteps] at h
    split at h
    · rename_i a ha
      unfold checked at ha
      split at ha
      · have first : Run step (fun i a => check i a = true) s a := .step i .refl ‹_› ha
        exact first.trans (ih h)
      · cases ha
    · cases h

end VmmSim.Lib

import Mathlib

/-! Runs of a partial step function, whose steps all meet a condition on the state before them. -/

namespace Plexdb

/-- `Run step Cond s ops s'`: the steps `ops` lead from `s` to `s'`. -/
inductive Run {σ ι : Type _} (step : σ → ι → Option σ) (Cond : σ → ι → Prop) : σ → List ι → σ → Prop where
  | nil (s : σ) : Run step Cond s [] s
  | cons {s s' s'' : σ} {op : ι} {ops : List ι} (cond : Cond s op) (hstep : step s op = some s')
      (run : Run step Cond s' ops s'') : Run step Cond s (op :: ops) s''

namespace Run

variable {σ ι : Type _} {step : σ → ι → Option σ} {Cond : σ → ι → Prop}

/-- What every step meeting the condition keeps holds at the end of every run. -/
theorem invariant {Inv : σ → Prop}
    (hkeep : ∀ s op s', Inv s → Cond s op → step s op = some s' → Inv s') {s s' : σ} {ops : List ι}
    (h : Run step Cond s ops s') (hs : Inv s) : Inv s' := by
  induction h with
  | nil => exact hs
  | cons cond hstep _ ih => exact ih (hkeep _ _ _ hs cond hstep)

theorem mono {Cond' : σ → ι → Prop} {s s' : σ} {ops : List ι} (h : Run step Cond s ops s')
    (hcond : ∀ s op, Cond s op → Cond' s op) : Run step Cond' s ops s' := by
  induction h with
  | nil s => exact .nil s
  | cons cond hstep _ ih => exact .cons (hcond _ _ cond) hstep ih

theorem append {s s' s'' : σ} {ops ops' : List ι} (h : Run step Cond s ops s') (h' : Run step Cond s' ops' s'') :
    Run step Cond s (ops ++ ops') s'' := by
  induction h with
  | nil => exact h'
  | cons cond hstep _ ih => exact .cons cond hstep (ih h')

theorem single {s s' : σ} {op : ι} (cond : Cond s op) (hstep : step s op = some s') :
    Run step Cond s [op] s' :=
  .cons cond hstep (.nil s')

end Run

/-- Takes the steps one by one, as long as each meets a computable condition. -/
def runAll {σ ι : Type _} (step : σ → ι → Option σ) (cond : σ → ι → Bool) : σ → List ι → Option σ
  | s, [] => some s
  | s, op :: ops => if cond s op then (step s op).bind fun s => runAll step cond s ops else none

theorem Run.of_runAll {σ ι : Type _} {step : σ → ι → Option σ} {cond : σ → ι → Bool} {s s' : σ}
    {ops : List ι} (h : runAll step cond s ops = some s') :
    Run step (fun s op => cond s op = true) s ops s' := by
  induction ops generalizing s with
  | nil => cases h; exact .nil s'
  | cons op ops ih =>
      rw [runAll] at h
      split_ifs at h with hcond
      obtain ⟨s₁, hstep, h⟩ := Option.bind_eq_some_iff.mp h
      exact .cons hcond hstep (ih h)

end Plexdb

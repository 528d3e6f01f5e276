import LeastSquares.StepSolver

/-!
# Two answers of step solvers

Step solvers that are asked the same question in two coordinate systems answer alike where their
steps are the same vector, found in as many iterations and with the same records.
-/

namespace LeastSquares

/-- Answers whose steps, where there is one, are the same in two coordinate systems, and step
buffers of length `n` in any case. -/
structure StepAnswer.Charted {S S' α : Type} (n : Nat) (parameters : Array α → Array α)
    (R : S → S' → Prop) (r : StepAnswer S α) (r' : StepAnswer S' α) : Prop where
  solver : R r.solver r'.solver
  inner : r'.inner = r.inner
  log : r'.log = r.log
  size : r.step.size = n
  size' : r'.step.size = n
  step : r.inner.isSome = true → r'.step = parameters r.step

end LeastSquares

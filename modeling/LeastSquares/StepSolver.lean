import LeastSquares.Log.Record
import LeastSquares.Outcome

/-!
# Step solvers

An outer iteration asks for the step of a damped linear problem: the minimizer `p` of
`‖J p + f‖² + lambda² Σ dtdᵢ pᵢ²`, where `f` are the residuals and `dtd` holds squared column norms
of the Jacobian `J`.  A step solver owns the workspace for problems of one shape.
-/

namespace LeastSquares

structure StepAnswer (S α : Type) where
  solver : S
  /-- The buffer of the step; its old contents where the problem was not solved. -/
  step : Array α
  /-- The number of inner iterations; nothing where the problem was not solved. -/
  inner : Option Nat
  log : List (Log.Record α)

/-- A solver of damped linear problems over a Jacobian. -/
class StepSolver (S J : Type) (α : outParam Type) where
  fits : S → Nat → Nat → Bool
  solveStep : S → J → Array α → Array α → α → Array α → Outcome (StepAnswer S α)

end LeastSquares

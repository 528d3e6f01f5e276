import LeastSquares.Double
import LeastSquares.Marquardt.Solve
import LeastSquares.Report.Table

/-!
# Followed solves

A solve with someone who follows it.  What the follower is shown, and what is printed, is read off
what happened in the solve.
-/

namespace LeastSquares.Report

open Marquardt (Options Problem Run Solver)

structure Watched (S J P : Type) where
  run : Run Float S J P
  outputs : List (Log.Output Float)
  reporter : Option (Reporter Float)

/-- Minimizes the residual of a problem from `x` before a follower. -/
def watch {S J P : Type} [LinearOperator J Float] [StepSolver S J Float] (solver : Solver Float S)
    (problem : Problem Float J P) (o : Options Float) (p : P) (jacobian : J) (x : Array Float)
    (follower : Follower Float) (elapsed : String) : Watched S J P :=
  let run := solver.solve problem o p jacobian x
  let (outputs, reporter) :=
    transcript o.verbose elapsed (follower.printing o.verbose) run.events.toList
  ⟨run, outputs, reporter⟩

end LeastSquares.Report

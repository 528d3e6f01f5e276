import LeastSquares.Damping
import LeastSquares.Lsmr.Solve
import LeastSquares.StepSolver

/-!
# Damped steps by LSMR

The step solver for any Jacobian: LSMR over the damped operator with the right-hand side `[-f; 0]`,
from a zero step.  It always answers a step; that its inner solve did not converge is a note.
-/

namespace LeastSquares.Lsmr

structure DampedStep (α : Type) where
  workspace : Workspace α
  damping : Damping α
  rhs : Array α
  params : Params α
  lastInfo : Option (Info α)
  deriving Repr

namespace DampedStep

variable {α : Type} [Scalar α]

def new (nrows ncols : Nat) (params : Params α) : DampedStep α where
  workspace := Workspace.new (nrows + ncols) ncols
  damping := Damping.none ncols
  rhs := Vec.zeros (nrows + ncols)
  params := params
  lastInfo := none

/-- The right-hand side `[-f; 0]` of the length of the workspace. -/
def rightHandSide (residuals : Array α) (size : Nat) : Array α :=
  residuals.map (- ·) ++ Vec.zeros (size - residuals.size)

def solve {J : Type} [LinearOperator J α] (s : DampedStep α) (jacobian : J)
    (residuals dtd : Array α) (lambda : α) (step : Array α) :
    Outcome (StepAnswer (DampedStep α) α) :=
  if residuals.size ≤ s.rhs.size then
    let rhs := rightHandSide residuals s.rhs.size
    let damping := s.damping.update lambda dtd
    let op : DampedOperator J α := ⟨jacobian, damping⟩
    let inner := solveFitting s.workspace op rhs (step.map fun _ => 0) s.params
    let s := { s with rhs := rhs, damping := damping, workspace := inner.workspace }
    match inner.info with
    | none => .brokenOff ⟨s, inner.x, none, inner.log⟩
    | some info =>
      let early := if info.stop.isConverged then []
        else [.stoppedEarly info.iterations info.stop info.condA]
      .done ⟨{ s with lastInfo := some info }, damping.unscale inner.x, some info.iterations,
        inner.log ++ early⟩
  else .brokenOff ⟨s, step, none, []⟩

instance {J : Type} [LinearOperator J α] : StepSolver (DampedStep α) J α where
  fits s nrows ncols := s.rhs.size == nrows + ncols && s.workspace.ncols == ncols
  solveStep := solve

end DampedStep

end LeastSquares.Lsmr

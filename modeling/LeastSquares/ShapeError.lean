/-!
# Errors of shape

What can be wrong with the sizes in a problem.  A solver without rows or columns is not built, and
a solve whose vectors, operator and workspace do not fit is refused before it starts.
-/

namespace LeastSquares

/-- Why a solver is not built. -/
inductive ConstructionError where
  | emptyShape (nrows ncols : Nat)
  /-- The size of the workspace is no word. -/
  | workspaceOverflow
  | workspaceAllocation
  deriving Repr, DecidableEq

def ConstructionError.message : ConstructionError → String
  | emptyShape nrows ncols => s!"invalid dimensions: nrows={nrows}, ncols={ncols}"
  | workspaceOverflow => "workspace size overflow"
  | workspaceAllocation => "workspace allocation failed"

/-- Why a solve is refused. -/
inductive ShapeError where
  | parameterLength (expected actual : Nat)
  | residualLength (expected actual : Nat)
  | operatorShape (expected actual : Nat × Nat)
  | stepSolverShape (nrows ncols : Nat)
  deriving Repr, DecidableEq

def ShapeError.message : ShapeError → String
  | parameterLength expected actual => s!"x length {actual} does not match expected {expected}"
  | residualLength expected actual =>
    s!"residual length {actual} does not match expected {expected}"
  | operatorShape (expectedRows, expectedCols) (rows, cols) =>
    s!"jacobian is {rows}x{cols}, expected {expectedRows}x{expectedCols}"
  | stepSolverShape nrows ncols =>
    s!"step solver workspace does not fit a {nrows}x{ncols} problem"

end LeastSquares

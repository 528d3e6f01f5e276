import LeastSquares.Dense.Cholesky
import LeastSquares.Dense.Matrix
import LeastSquares.StepSolver

/-!
# Damped normal equations

The direct step solver for dense Jacobians: it forms `Jᵀ J + lambda² diag dtd`, factorizes it and
solves for the right-hand side `-Jᵀ f`.  Where the matrix is not positive definite the step stays
as it was.
-/

namespace LeastSquares.Dense

/-- The workspace for problems with `rhs.size` parameters. -/
structure NormalEquations (α : Type) where
  /-- The damped normal matrix of the last problem, or its factor. -/
  normal : Triangle α
  rhs : Array α
  deriving Repr

namespace NormalEquations

variable {α : Type} [Scalar α]

def new (ncols : Nat) : NormalEquations α where
  normal := (List.range ncols).map fun col => List.replicate (ncols - col) 0
  rhs := Vec.zeros ncols

def ncols (s : NormalEquations α) : Nat := s.rhs.size

def gram : List (Array α) → Triangle α
  | [] => []
  | c :: rest => ((c :: rest).map fun d => Vec.dot d c) :: gram rest

/-- Adds a multiple of the squares to the beginning of the diagonal. -/
def addDiagonal (factor : α) : List α → Triangle α → Triangle α
  | square :: squares, (pivot :: below) :: rest =>
    ((pivot + factor * square) :: below) :: addDiagonal factor squares rest
  | _, triangle => triangle

/-- The matrix `Jᵀ J + lambda² diag dtd`. -/
def dampedNormal (jacobian : Matrix α) (dtd : Array α) (lambda : α) : Triangle α :=
  addDiagonal (lambda * lambda) dtd.toList (gram jacobian.columns.toList)

def solveInto (F : Factorization α) (s : NormalEquations α) (factor : Triangle α)
    (step : Array α) : Outcome (StepAnswer (NormalEquations α) α) :=
  let solution := (F.solve factor s.rhs.toList).toArray
  let s : NormalEquations α := ⟨factor, solution⟩
  if step.size = solution.size then .done ⟨s, solution, some 0, []⟩
  else .brokenOff ⟨s, step, none, []⟩

/-- Solves `(Jᵀ J + lambda² diag dtd) step = -Jᵀ f` by a factorization.  A `dtd` that is shorter
than the diagonal damps its beginning; a longer one, and any other vector or matrix of a wrong size,
does not fit. -/
def solveBy (F : Factorization α) (s : NormalEquations α) (jacobian : Matrix α)
    (residuals dtd : Array α) (lambda : α) (step : Array α) :
    Outcome (StepAnswer (NormalEquations α) α) :=
  if jacobian.ncols = s.ncols ∧ dtd.size ≤ s.ncols then
    let s := { s with normal := dampedNormal jacobian dtd lambda }
    match LinearOperator.applyTranspose jacobian (-1) residuals 0 s.rhs with
    | .brokenOff _ => .brokenOff ⟨s, step, none, []⟩
    | .done rhs =>
      let s := { s with rhs := rhs }
      match F.factor? s.normal with
      | some factor => s.solveInto F factor step
      | none => .done ⟨s, step, none, [.notPositiveDefinite lambda]⟩
  else .brokenOff ⟨s, step, none, []⟩

def solve (s : NormalEquations α) (jacobian : Matrix α) (residuals dtd : Array α) (lambda : α)
    (step : Array α) : Outcome (StepAnswer (NormalEquations α) α) :=
  s.solveBy .cholesky jacobian residuals dtd lambda step

instance : StepSolver (NormalEquations α) (Matrix α) α where
  fits s _ ncols := s.ncols == ncols
  solveStep := solve

end NormalEquations

end LeastSquares.Dense

import LeastSquares.Vec

/-!
# LSMR: tolerances, stopping rules and summaries

LSMR minimizes `‖A x - b‖² + damp² ‖x - x₀‖²` by Golub–Kahan bidiagonalization and touches `A`
only through its products.  This module holds what a solve is given and what it answers.
-/

namespace LeastSquares.Lsmr

structure Params (α : Type) where
  atol : α
  btol : α
  /-- The largest condition number; not positive for no limit. -/
  conlim : α
  /-- The largest number of iterations; the first one is always made. -/
  maxIters : Nat
  damp : α
  deriving Repr

namespace Params

def default {α : Type} [Scalar α] : Params α where
  atol := 1e-10
  btol := 1e-10
  conlim := 1e10
  maxIters := 100
  damp := 0

end Params

inductive Stop where
  /-- The normal residual vanished: `x` solves the problem already. -/
  | exactFit
  /-- The residual is small against `b` and `A x`. -/
  | residualTolerance
  | orthogonalityTolerance
  /-- The condition number exceeds its limit. -/
  | conditionLimit
  | residualStagnation
  | orthogonalityStagnation
  | conditionStagnation
  | maxIterations
  deriving Repr, DecidableEq

namespace Stop

/-- Every rule, in the order in which they are tested. -/
def all : List Stop :=
  [exactFit, residualTolerance, orthogonalityTolerance, conditionLimit, residualStagnation,
    orthogonalityStagnation, conditionStagnation, maxIterations]

def isConverged : Stop → Bool
  | conditionLimit | conditionStagnation | maxIterations => false
  | _ => true

def name : Stop → String
  | exactFit => "ExactFit"
  | residualTolerance => "ResidualTolerance"
  | orthogonalityTolerance => "OrthogonalityTolerance"
  | conditionLimit => "ConditionLimit"
  | residualStagnation => "ResidualStagnation"
  | orthogonalityStagnation => "OrthogonalityStagnation"
  | conditionStagnation => "ConditionStagnation"
  | maxIterations => "MaxIterations"

end Stop

structure Info (α : Type) where
  iterations : Nat
  stop : Stop
  /-- The estimate of `‖b - A x‖`, with the damping. -/
  normR : α
  /-- The estimate of the normal residual `‖Aᵀ r‖`. -/
  normAr : α
  normA : α
  condA : α
  normX : α
  deriving Repr

/-- The vectors of a solve for one shape of operator, whatever an earlier solve left in them. -/
structure Workspace (α : Type) where
  u : Array α
  v : Array α
  h : Array α
  hbar : Array α
  deriving Repr

namespace Workspace

variable {α : Type}

def new [Scalar α] (nrows ncols : Nat) : Workspace α :=
  ⟨Vec.zeros nrows, Vec.zeros ncols, Vec.zeros ncols, Vec.zeros ncols⟩

def nrows (w : Workspace α) : Nat := w.u.size

def ncols (w : Workspace α) : Nat := w.v.size

def shape (w : Workspace α) : Nat × Nat := (w.nrows, w.ncols)

end Workspace

end LeastSquares.Lsmr

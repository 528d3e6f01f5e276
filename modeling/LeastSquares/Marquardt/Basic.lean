import LeastSquares.Log.Record
import LeastSquares.Outcome
import LeastSquares.Scalar

/-!
# Levenberg–Marquardt: problems, options and answers

The outer solver minimizes `‖f x‖²` for residuals `f` with a Jacobian.  This module holds what a
solve is given and what it answers: a problem as two callbacks over a state of its own, the
options, the status, the statistics and the report of an iteration.
-/

namespace LeastSquares.Marquardt

/-- The sum of two counters.  Counters are words of 64 bits, and past the last word a sum starts
again at zero. -/
def addCounts (a b : Nat) : Nat := (a + b) % UInt64.size

/-- A nonlinear least-squares problem.  Its callbacks run over a state `P` of the problem and may
break off; `J` is whatever represents the Jacobian. -/
structure Problem (α J P : Type) where
  /-- Overwrites a buffer with the residuals at the given parameters. -/
  residuals : P → Array α → Array α → Outcome (P × Array α)
  /-- Overwrites the Jacobian with the one at the given parameters. -/
  jacobian : P → Array α → J → Outcome (P × J)

structure Options (α : Type) where
  tol : α
  maxIters : Nat
  lambdaInit : α
  lambdaMin : α
  lambdaMax : α
  lambdaFactor : α
  /-- The least squared column norm that damps a parameter. -/
  minDiagonal : α
  minStepQuality : α
  goodStepQuality : α
  verbose : Bool
  deriving Repr

def Options.default {α : Type} [Scalar α] : Options α where
  tol := 1e-8
  maxIters := 1000
  lambdaInit := 10.0
  lambdaMin := 1e-16
  lambdaMax := 1e16
  lambdaFactor := 10.0
  minDiagonal := 1e-6
  minStepQuality := 1e-3
  goodStepQuality := 0.75
  verbose := false

inductive Status where
  | convergedStep
  | convergedGradient
  /-- The residual is exactly zero. -/
  | convergedResidual
  | maxIterations
  /-- The residual at the start is not finite. -/
  | numericalFailure
  deriving Repr, DecidableEq

namespace Status

def all : List Status :=
  [convergedStep, convergedGradient, convergedResidual, maxIterations, numericalFailure]

def isConverged : Status → Bool
  | convergedStep | convergedGradient | convergedResidual => true
  | maxIterations | numericalFailure => false

def name : Status → String
  | convergedStep => "ConvergedStep"
  | convergedGradient => "ConvergedGradient"
  | convergedResidual => "ConvergedResidual"
  | maxIterations => "MaxIterations"
  | numericalFailure => "NumericalFailure"

end Status

structure Stats (α : Type) where
  status : Status
  outer : Nat
  inner : Nat
  /-- The sum of the squared residuals at the final parameters. -/
  residual : α
  /-- The largest component of the last step. -/
  stepInf : α
  lambda : α
  deriving Repr

namespace Stats

variable {α : Type}

def iterations (s : Stats α) : Nat := addCounts s.outer s.inner

def converged (s : Stats α) : Bool := s.status.isConverged

def summary (s : Stats α) (elapsed : String) : String :=
  s!"{s.status.name} after {s.iterations} iterations ({s.inner} inner), time: " ++ elapsed

end Stats

structure IterationReport (α : Type) where
  iteration : Nat
  residual : α
  trialResidual : α
  rho : α
  lambda : α
  stepInf : α
  inner : Nat
  accepted : Bool
  deriving Repr

/-- What a solve does that can be seen from outside, in order. -/
inductive Event (α : Type) where
  /-- The residuals are asked for. -/
  | residuals (x : Array α)
  /-- The Jacobian is asked for. -/
  | jacobian (x : Array α)
  | step (residuals dtd : Array α) (lambda : α)
  | report (r : IterationReport α)
  | record (r : Log.Record α)
  | finished (stats : Stats α)

end LeastSquares.Marquardt

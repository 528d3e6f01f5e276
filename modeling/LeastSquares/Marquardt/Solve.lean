import LeastSquares.Marquardt.Iteration
import LeastSquares.ShapeError

/-!
# Levenberg–Marquardt: a solve

A solver owns the step solver and the buffers for problems of one shape.  A solve refuses what does
not fit before it calls the problem, fails where the residual at the start is not finite, and else
iterates: the limit on the iterations is tested first, then whether the residual is exactly zero.
-/

namespace LeastSquares.Marquardt

structure Solver (α S : Type) where
  nrows : Nat
  ncols : Nat
  stepSolver : S
  buffers : Buffers α
  deriving Repr

inductive Ending (α : Type) where
  /-- Something does not fit; nothing was called. -/
  | refused (e : ShapeError)
  | finished (stats : Stats α)
  /-- A callback or a product reached outside its data. -/
  | brokenOff
  deriving Repr

structure Run (α S J P : Type) where
  solver : Solver α S
  problem : P
  jacobian : J
  x : Array α
  ending : Ending α
  events : Array (Event α)

variable {α S J P : Type} [Scalar α] [LinearOperator J α] [StepSolver S J α]

def Solver.new (nrows ncols : Nat) (stepSolver : S) : Except ConstructionError (Solver α S) :=
  if nrows = 0 ∨ ncols = 0 then .error (.emptyShape nrows ncols)
  else .ok ⟨nrows, ncols, stepSolver, Buffers.new nrows ncols⟩

/-- Iterates until the solve stops, at most so many times more: the last state, and the status
where the solve came to its end. -/
def iterations (problem : Problem α J P) (o : Options α) :
    Nat → State α S J P → State α S J P × Option Status
  | 0, s => (s, some .maxIterations)
  | n + 1, s =>
    if s.residual == 0 then (s, some .convergedResidual)
    else
      match s.iterate problem o with
      | .next s' => iterations problem o n s'
      | .stop s' status => (s', some status)
      | .brokenOff s' => (s', none)

namespace Solver

def misfit? (solver : Solver α S) (jacobian : J) (x : Array α) : Option ShapeError :=
  let expected := (solver.nrows, solver.ncols)
  let actual := LinearOperator.shape jacobian
  if x.size ≠ solver.ncols then some (.parameterLength solver.ncols x.size)
  else if expected ≠ actual then some (.operatorShape expected actual)
  else if StepSolver.fits J solver.stepSolver solver.nrows solver.ncols then none
  else some (.stepSolverShape solver.nrows solver.ncols)

omit [Scalar α] in
theorem misfit?_eq_none_iff {solver : Solver α S} {jacobian : J} {x : Array α} :
    solver.misfit? jacobian x = none ↔ x.size = solver.ncols ∧
      LinearOperator.shape jacobian = (solver.nrows, solver.ncols) ∧
        StepSolver.fits J solver.stepSolver solver.nrows solver.ncols = true := by
  unfold misfit?
  dsimp only
  by_cases hx : x.size = solver.ncols
  · rw [if_neg (not_not_intro hx), and_iff_right hx]
    by_cases hshape : LinearOperator.shape jacobian = (solver.nrows, solver.ncols)
    · rw [if_neg (not_not_intro hshape.symm), and_iff_right hshape]
      split <;> simp [*]
    · simp [hshape, Ne.symm hshape]
  · simp [hx]

def begin (solver : Solver α S) (o : Options α) (p : P) (jacobian : J) (x : Array α) :
    State α S J P where
  problem := p
  jacobian := jacobian
  stepSolver := solver.stepSolver
  x := x
  buffers := solver.buffers
  residual := 0
  lambda := State.clamped o o.lambdaInit
  stale := true
  outer := 0
  inner := 0
  stepInf := 0
  events := #[.residuals x]

/-- The solve from its first evaluation on: the last state, and the status where the solve came to
its end. -/
def start (problem : Problem α J P) (o : Options α) (s : State α S J P) :
    State α S J P × Option Status :=
  match problem.residuals s.problem s.x s.buffers.residuals with
  | .brokenOff (p, residuals) =>
    ({ s with problem := p, buffers.residuals := residuals }, none)
  | .done (p, residuals) =>
    let residual := Vec.dot residuals residuals
    let s := { s with problem := p, buffers.residuals := residuals, residual := residual }
    if Scalar.isFinite residual then iterations problem o o.maxIters s
    else ({ s with stepInf := Scalar.infinity }, some .numericalFailure)

def leave (solver : Solver α S) (s : State α S J P) (ending : Ending α)
    (events : Array (Event α)) : Run α S J P where
  solver := { solver with stepSolver := s.stepSolver, buffers := s.buffers }
  problem := s.problem
  jacobian := s.jacobian
  x := s.x
  ending := ending
  events := events

/-- Minimizes the residual of a problem from `x`. -/
def solve (solver : Solver α S) (problem : Problem α J P) (o : Options α) (p : P) (jacobian : J)
    (x : Array α) : Run α S J P :=
  match solver.misfit? jacobian x with
  | some e => ⟨solver, p, jacobian, x, .refused e, #[]⟩
  | none =>
    match start problem o (solver.begin o p jacobian x) with
    | (s, some status) =>
      solver.leave s (.finished (s.stats status)) (s.events.push (.finished (s.stats status)))
    | (s, none) => solver.leave s .brokenOff s.events

end Solver

end LeastSquares.Marquardt

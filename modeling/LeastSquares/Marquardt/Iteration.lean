import LeastSquares.Marquardt.Basic
import LeastSquares.Operator
import LeastSquares.StepSolver

/-!
# Levenberg–Marquardt: one iteration

An outer iteration refreshes the Jacobian where the last step was accepted, asks for a step,
compares the decrease of the residual at the trial point with the one that the linear model
predicts, and accepts or rejects the trial point.  `State` is the solve between two iterations.
-/

namespace LeastSquares.Marquardt

/-- The buffers of a solve, whatever an earlier one left in them. -/
structure Buffers (α : Type) where
  residuals : Array α
  trialResiduals : Array α
  predicted : Array α
  /-- The squared column norms that damp the parameters. -/
  dtd : Array α
  step : Array α
  trialPoint : Array α
  deriving Repr

def Buffers.new {α : Type} [Scalar α] (nrows ncols : Nat) : Buffers α :=
  ⟨Vec.zeros nrows, Vec.zeros nrows, Vec.zeros nrows, Vec.zeros ncols, Vec.zeros ncols,
    Vec.zeros ncols⟩

structure State (α S J P : Type) where
  problem : P
  jacobian : J
  stepSolver : S
  x : Array α
  buffers : Buffers α
  /-- The sum of the squared residuals at the current parameters. -/
  residual : α
  lambda : α
  /-- Whether the Jacobian is not the one at the current parameters. -/
  stale : Bool
  outer : Nat
  inner : Nat
  stepInf : α
  events : Array (Event α)

namespace State

variable {α S J P : Type} [Scalar α]

def note (s : State α S J P) (e : Event α) : State α S J P := { s with events := s.events.push e }

def noteAll (s : State α S J P) (log : List (Log.Record α)) : State α S J P :=
  { s with events := s.events ++ (log.map Event.record).toArray }

def stats (s : State α S J P) (status : Status) : Stats α :=
  ⟨status, s.outer, s.inner, s.residual, s.stepInf, s.lambda⟩

def raised (o : Options α) (lambda : α) : α := Scalar.min (lambda * o.lambdaFactor) o.lambdaMax

def lowered (o : Options α) (lambda : α) : α := Scalar.max (lambda / o.lambdaFactor) o.lambdaMin

def clamped (o : Options α) (lambda : α) : α :=
  Scalar.min (Scalar.max lambda o.lambdaMin) o.lambdaMax

/-- Evaluates the Jacobian and its column norms where they are stale. -/
def refresh [LinearOperator J α] (problem : Problem α J P) (o : Options α)
    (s : State α S J P) : Outcome (State α S J P) :=
  if s.stale then
    let s := s.note (.jacobian s.x)
    match problem.jacobian s.problem s.x s.jacobian with
    | .brokenOff (p, j) => .brokenOff { s with problem := p, jacobian := j }
    | .done (p, j) =>
      let s := { s with problem := p, jacobian := j }
      match LinearOperator.columnSquares j s.buffers.dtd with
      | .brokenOff squares => .brokenOff { s with buffers.dtd := squares }
      | .done squares =>
        .done
          { s with
            buffers.dtd := squares.map fun d => Scalar.max d o.minDiagonal
            stale := false }
  else .done s

def askStep [StepSolver S J α] (s : State α S J P) : Outcome (State α S J P × Option Nat) :=
  let s := s.note (.step s.buffers.residuals s.buffers.dtd s.lambda)
  let answer := StepSolver.solveStep s.stepSolver s.jacobian s.buffers.residuals s.buffers.dtd
    s.lambda s.buffers.step
  answer.map fun a =>
    ({ s.noteAll a.log with stepSolver := a.solver, buffers.step := a.step }, a.inner)

def predict [LinearOperator J α] (s : State α S J P) : Outcome (State α S J P) :=
  (LinearOperator.apply s.jacobian 1 s.buffers.step 1 s.buffers.residuals).map fun predicted =>
    { s with buffers.predicted := predicted }

def evaluateTrial (problem : Problem α J P) (s : State α S J P) : Outcome (State α S J P) :=
  let trialPoint := Vec.zipUpdate (fun _ xp => xp.1 + xp.2) s.buffers.trialPoint
    (s.x.zip s.buffers.step)
  let s := ({ s with buffers.trialPoint := trialPoint }).note (.residuals trialPoint)
  (problem.residuals s.problem trialPoint s.buffers.trialResiduals).map fun pr =>
    { s with problem := pr.1, buffers.trialResiduals := pr.2 }

/-- The decrease of the residual over the one that the model predicts. -/
def gainRatio (residual trial predicted : α) : α := (residual - trial) / (residual - predicted)

def accept (o : Options α) (rho trial : α) (s : State α S J P) : State α S J P :=
  { s with
    x := s.buffers.trialPoint
    buffers.residuals := s.buffers.trialResiduals
    buffers.trialResiduals := s.buffers.residuals
    residual := trial
    stale := true
    lambda := if o.goodStepQuality < rho then lowered o s.lambda else s.lambda }

def reject (o : Options α) (s : State α S J P) : State α S J P :=
  { s with lambda := raised o s.lambda }

end State

inductive Step (α S J P : Type) where
  | next (s : State α S J P)
  | stop (s : State α S J P) (status : Status)
  | brokenOff (s : State α S J P)

namespace State

variable {α S J P : Type} [Scalar α]

/-- Accepts or rejects the trial point by the gain ratio, which has to exceed the threshold; one
that is not a number does not.  The iteration is reported with the damping of its step. -/
def judge (o : Options α) (inner : Nat) (s : State α S J P) : Step α S J P :=
  let predicted := Vec.dot s.buffers.predicted s.buffers.predicted
  let trial := Vec.dot s.buffers.trialResiduals s.buffers.trialResiduals
  let rho := gainRatio s.residual trial predicted
  let accepted := decide (o.minStepQuality < rho)
  let s := s.note <| .report
    { iteration := s.outer
      residual := s.residual
      trialResidual := trial
      rho := rho
      lambda := s.lambda
      stepInf := s.stepInf
      inner := inner
      accepted := accepted }
  let s := s.note (.record (.iteration s.outer s.residual trial rho s.lambda))
  if accepted then
    let s := s.accept o rho trial
    if s.stepInf < o.tol then .stop s .convergedStep else .next s
  else .next (s.reject o)

def tryStep [LinearOperator J α] (problem : Problem α J P) (o : Options α) (inner : Nat)
    (s : State α S J P) : Step α S J P :=
  let s := { s with inner := addCounts s.inner inner }
  if s.buffers.step.all (· == 0) then .stop { s with stepInf := 0 } .convergedGradient
  else
    let s := { s with stepInf := Vec.maxAbs s.buffers.step }
    match s.predict with
    | .brokenOff s => .brokenOff s
    | .done s =>
      match s.evaluateTrial problem with
      | .brokenOff s => .brokenOff s
      | .done s => s.judge o inner

/-- The iteration where the step solver has no step: it is reported as rejected. -/
def skipStep (o : Options α) (s : State α S J P) : State α S J P :=
  (s.note <| .report
    { iteration := s.outer
      residual := s.residual
      trialResidual := s.residual
      rho := 0
      lambda := s.lambda
      stepInf := 0
      inner := 0
      accepted := false }).reject o

def iterate [LinearOperator J α] [StepSolver S J α] (problem : Problem α J P) (o : Options α)
    (s : State α S J P) : Step α S J P :=
  match ({ s with outer := s.outer + 1 }).refresh problem o with
  | .brokenOff s => .brokenOff s
  | .done s =>
    match s.askStep with
    | .brokenOff (s, _) => .brokenOff s
    | .done (s, none) => .next (s.skipStep o)
    | .done (s, some inner) => s.tryStep problem o inner

end State

end LeastSquares.Marquardt

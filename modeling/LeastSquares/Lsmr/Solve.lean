import LeastSquares.Log.Record
import LeastSquares.Lsmr.Iteration
import LeastSquares.ShapeError

/-!
# LSMR: a solve

A solve starts from the residual at its first `x`, makes at least one iteration unless that
residual is orthogonal to the operator, and stops at the first rule that fires.  The limit on the
iterations is the last rule, so a solve that converges in its last iteration counts as converged.
-/

namespace LeastSquares.Lsmr

variable {α : Type} [Scalar α] {A : Type} [LinearOperator A α]

structure Solution (α : Type) where
  workspace : Workspace α
  x : Array α
  /-- The summary; nothing where a product broke off. -/
  info : Option (Info α)
  log : List (Log.Record α)

/-- The first two vectors of the bidiagonalization: `beta u = b - A x` and `alpha v = Aᵀ u`. -/
def firstBasis (w : Workspace α) (a : A) (b x : Array α) : Outcome (Basis α) :=
  match LinearOperator.apply a (-1) x 1 b with
  | .brokenOff u => .brokenOff ⟨u, w.v, 0, 0⟩
  | .done residual =>
    let (beta, u) := Basis.unit residual
    match LinearOperator.applyTranspose a 1 u 0 w.v with
    | .brokenOff v => .brokenOff ⟨u, v, 0, beta⟩
    | .done image =>
      let (alpha, v) := Basis.unit image
      .done ⟨u, v, alpha, beta⟩

def State.initial (hbar x : Array α) (g : Basis α) : State α where
  iteration := 0
  basis := g
  factors :=
    { alphabar := g.alpha
      rho := 1
      rhobar := 1
      cbar := 1
      sbar := 0
      zeta := 0
      zetabar := g.alpha * g.beta }
  residual :=
    { betadd := g.beta
      betad := 0
      rhodold := 1
      tautildeold := 0
      thetatilde := 0
      removed := 0 }
  operator := { squares := g.alpha * g.alpha, maxrbar := 0, minrbar := 1e100 }
  h := g.v
  hbar := hbar.map fun _ => 0
  x := x
  normB := g.beta
  normR := g.beta
  normAr := g.alpha * g.beta
  normA := Scalar.sqrt (g.alpha * g.alpha)
  condA := 1
  normX := Vec.norm x

/-- Iterates until a rule stops the solve; after the given number of further iterations, the limit
does.  The answer is the last state, and the rule where the solve came to its end. -/
def iterate (a : A) (p : Params α) : Nat → State α → State α × Option Stop
  | further, s =>
    match step a p s with
    | .next s' =>
      match further with
      | 0 => (s', some .maxIterations)
      | n + 1 => iterate a p n s'
    | .stop s' rule => (s', some rule)
    | .brokenOff s' => (s', none)

def State.solution (s : State α) (rule : Option Stop) : Solution α where
  workspace := s.workspace
  x := s.x
  info := rule.map s.info
  log := (rule.map (Log.Record.lsmrStopped s.iteration)).toList

/-- Improves `x` over an operator, a right-hand side and a workspace of fitting sizes.  Where the
normal residual is zero at the start, the first iteration is counted and not made. -/
def solveFitting (w : Workspace α) (a : A) (b x : Array α) (p : Params α) : Solution α :=
  match firstBasis w a b x with
  | .brokenOff g => ⟨⟨g.u, g.v, w.h, w.hbar⟩, x, none, []⟩
  | .done g =>
    let s := State.initial w.hbar x g
    if s.normAr == 0 then
      ⟨s.workspace, x, some ({ s with iteration := 1 }.info .exactFit), []⟩
    else
      let (last, rule) := iterate a p (p.maxIters - 1) s
      last.solution rule

/-- Improves `x` towards the least-squares solution, or names the first size that does not fit. -/
def solve (w : Workspace α) (a : A) (b x : Array α) (p : Params α) :
    Except ShapeError (Solution α) :=
  if w.shape ≠ LinearOperator.shape a then
    .error (.operatorShape w.shape (LinearOperator.shape a))
  else if b.size ≠ w.nrows then .error (.residualLength w.nrows b.size)
  else if x.size ≠ w.ncols then .error (.parameterLength w.ncols x.size)
  else .ok (solveFitting w a b x p)

end LeastSquares.Lsmr

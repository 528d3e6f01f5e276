import LeastSquares.Lsmr.Basic
import LeastSquares.Operator

/-!
# LSMR: one iteration

An iteration extends the bidiagonalization by one vector on each side, applies three plane
rotations to the new entries, moves the solution along `hbar` and updates the estimates of the
residual norm, the operator norm and the condition number.  Everything that an iteration hands to
the next is a field of `State`; the rotations of one iteration are a `Turn`.
-/

namespace LeastSquares.Lsmr

/-- The last two vectors of the bidiagonalization: `A v = alpha u + beta u'`. -/
structure Basis (α : Type) where
  u : Array α
  v : Array α
  alpha : α
  beta : α

structure Factors (α : Type) where
  alphabar : α
  rho : α
  rhobar : α
  cbar : α
  sbar : α
  zeta : α
  zetabar : α

/-- The rotations of one iteration and the entries that they produce. -/
structure Turn (α : Type) where
  /-- The cosine and the sine of the rotation that takes in the damping. -/
  chat : α
  shat : α
  c : α
  s : α
  rho : α
  thetanew : α
  alphabar : α
  cbar : α
  sbar : α
  thetabar : α
  rhotemp : α
  rhobar : α
  zeta : α
  zetabar : α

structure ResidualEstimate (α : Type) where
  betadd : α
  betad : α
  rhodold : α
  tautildeold : α
  thetatilde : α
  /-- The squares that the damping has taken out of the residual. -/
  removed : α

structure OperatorEstimate (α : Type) where
  /-- The sum of the squares of every `alpha` and `beta` so far. -/
  squares : α
  maxrbar : α
  minrbar : α

structure State (α : Type) where
  iteration : Nat
  basis : Basis α
  factors : Factors α
  residual : ResidualEstimate α
  operator : OperatorEstimate α
  h : Array α
  hbar : Array α
  x : Array α
  /-- The norm of the residual at the start. -/
  normB : α
  normR : α
  normAr : α
  normA : α
  condA : α
  normX : α

variable {α : Type} [Scalar α] {A : Type} [LinearOperator A α]

namespace Basis

def unit (w : Array α) : α × Array α := (Vec.norm w, Vec.normalize (Vec.norm w) w)

theorem size_unit (w : Array α) : (unit w).2.size = w.size := Vec.size_normalize _ _

/-- The next two vectors.  Where `beta` vanishes there is no next `u`, and `v` stays. -/
def extend (a : A) (g : Basis α) : Outcome (Basis α) :=
  match LinearOperator.apply a 1 g.v (-g.alpha) g.u with
  | .brokenOff u => .brokenOff { g with u := u }
  | .done image =>
    let (beta, u) := unit image
    if 0 < beta then
      match LinearOperator.applyTranspose a 1 u (-beta) g.v with
      | .brokenOff v => .brokenOff ⟨u, v, g.alpha, beta⟩
      | .done image =>
        let (alpha, v) := unit image
        .done ⟨u, v, alpha, beta⟩
    else .done ⟨u, g.v, g.alpha, beta⟩

end Basis

/-- The rotations over the entries of a new basis; nothing where a pivot vanishes. -/
def turn? (damp : α) (g : Basis α) (f : Factors α) : Option (Turn α) :=
  let alphahat := Scalar.hypot f.alphabar damp
  let chat := if 0 < alphahat then f.alphabar / alphahat else 1
  let shat := if 0 < alphahat then damp / alphahat else 0
  let rho := Scalar.hypot alphahat g.beta
  if rho == 0 then none
  else
    let c := alphahat / rho
    let s := g.beta / rho
    let thetanew := s * g.alpha
    let rhotemp := f.cbar * rho
    let rhobar := Scalar.hypot rhotemp thetanew
    if rhobar == 0 then none
    else
      let cbar := rhotemp / rhobar
      let sbar := thetanew / rhobar
      some
        { chat := chat
          shat := shat
          c := c
          s := s
          rho := rho
          thetanew := thetanew
          alphabar := c * g.alpha
          cbar := cbar
          sbar := sbar
          thetabar := f.sbar * rho
          rhotemp := rhotemp
          rhobar := rhobar
          zeta := cbar * f.zetabar
          zetabar := -sbar * f.zetabar }

def Turn.factors (t : Turn α) : Factors α :=
  ⟨t.alphabar, t.rho, t.rhobar, t.cbar, t.sbar, t.zeta, t.zetabar⟩

namespace ResidualEstimate

/-- The estimate after a turn, with the residual norm.  The `zeta` before the turn enters with a
delay of one iteration. -/
def advance (e : ResidualEstimate α) (zetaold : α) (t : Turn α) : ResidualEstimate α × α :=
  let betaacute := t.chat * e.betadd
  let betacheck := -t.shat * e.betadd
  let betahat := t.c * betaacute
  let betadd := -t.s * betaacute
  let rhotildeold := Scalar.hypot e.rhodold t.thetabar
  let ctildeold := e.rhodold / rhotildeold
  let stildeold := t.thetabar / rhotildeold
  let thetatilde := stildeold * t.rhobar
  let rhodold := ctildeold * t.rhobar
  let betad := -stildeold * e.betad + ctildeold * betahat
  let tautildeold := (zetaold - e.thetatilde * e.tautildeold) / rhotildeold
  let taud := (t.zeta - thetatilde * tautildeold) / rhodold
  let removed := e.removed + betacheck * betacheck
  let gap := betad - taud
  (⟨betadd, betad, rhodold, tautildeold, thetatilde, removed⟩,
    Scalar.sqrt (removed + gap * gap + betadd * betadd))

end ResidualEstimate

namespace OperatorEstimate

/-- The estimate after an iteration, with the operator norm and the condition number.  The norm
counts `beta` and leaves the new `alpha` to the next iteration; the first `rhobar` is a seed, which
the smallest one leaves out. -/
def advance (e : OperatorEstimate α) (iteration : Nat) (g : Basis α) (rhobarold rhotemp : α) :
    OperatorEstimate α × α × α :=
  let squares := e.squares + g.beta * g.beta
  let maxrbar := Scalar.max e.maxrbar rhobarold
  let minrbar := if 1 < iteration then Scalar.min e.minrbar rhobarold else e.minrbar
  (⟨squares + g.alpha * g.alpha, maxrbar, minrbar⟩, Scalar.sqrt squares,
    Scalar.max maxrbar rhotemp / Scalar.min minrbar rhotemp)

end OperatorEstimate

namespace State

/-- The state after the rotations of an iteration: the solution moves along `hbar`. -/
def advance (s : State α) (t : Turn α) : State α :=
  let f := s.factors
  let hbarScale := -t.thetabar * t.rho / (f.rho * f.rhobar)
  let hbar := Vec.zipUpdate (fun old h => h + hbarScale * old) s.hbar s.h
  let xScale := t.zeta / (t.rho * t.rhobar)
  let x := Vec.zipUpdate (fun xi hb => xi + xScale * hb) s.x hbar
  let hScale := -t.thetanew / t.rho
  let h := Vec.zipUpdate (fun old v => v + hScale * old) s.h s.basis.v
  let (residual, normR) := s.residual.advance f.zeta t
  let (operator, normA, condA) := s.operator.advance s.iteration s.basis f.rhobar t.rhotemp
  { s with
    factors := t.factors
    residual := residual
    operator := operator
    h := h
    hbar := hbar
    x := x
    normR := normR
    normAr := Scalar.abs t.zetabar
    normA := normA
    condA := condA
    normX := Vec.norm x }

/-- The rule that stops the solve after an iteration.  The tolerances are tested first; the rules
against the precision of the numbers hold also where the tolerances are zero. -/
def stopRule? (p : Params α) (s : State α) : Option Stop :=
  let ctol := if 0 < p.conlim then 1 / p.conlim else 0
  let test1 := s.normR / s.normB
  let test2 := s.normAr / (s.normA * s.normR)
  let test3 := 1 / s.condA
  let t1 := test1 / (1 + s.normA * s.normX / s.normB)
  let rtol := p.btol + p.atol * s.normA * s.normX / s.normB
  if test1 ≤ rtol then some .residualTolerance
  else if test2 ≤ p.atol then some .orthogonalityTolerance
  else if test3 ≤ ctol then some .conditionLimit
  else if 1 + t1 ≤ 1 then some .residualStagnation
  else if 1 + test2 ≤ 1 then some .orthogonalityStagnation
  else if 1 + test3 ≤ 1 then some .conditionStagnation
  else none

def info (s : State α) (stop : Stop) : Info α where
  iterations := s.iteration
  stop := stop
  normR := s.normR
  normAr := s.normAr
  normA := s.normA
  condA := s.condA
  normX := s.normX

def workspace (s : State α) : Workspace α := ⟨s.basis.u, s.basis.v, s.h, s.hbar⟩

end State

inductive Step (α : Type) where
  | next (s : State α)
  | stop (s : State α) (rule : Stop)
  | brokenOff (s : State α)

/-- One iteration.  A vanishing pivot stops the solve before the solution moves. -/
def step (a : A) (p : Params α) (s : State α) : Step α :=
  let s := { s with iteration := s.iteration + 1 }
  match s.basis.extend a with
  | .brokenOff g => .brokenOff { s with basis := g }
  | .done g =>
    let s := { s with basis := g }
    match turn? p.damp g s.factors with
    | none => .stop s .exactFit
    | some t =>
      let s := s.advance t
      match s.stopRule? p with
      | some rule => .stop s rule
      | none => .next s

end LeastSquares.Lsmr

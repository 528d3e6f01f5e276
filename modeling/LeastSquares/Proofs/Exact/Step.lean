import Mathlib
import LeastSquares.Proofs.Exact.Operator
import LeastSquares.StepSolver

/-!
# Exact steps

The step of a damped linear problem is the solution of its normal equations.  Where the damping of
every parameter is positive there is at most one.
-/

namespace LeastSquares.Exact

open Matrix
open LinearMap (adjoint)

variable {m n : ℕ} {B : Matrix (Fin m) (Fin n) ℝ} {f : EuclideanSpace ℝ (Fin m)}
  {dtd p q : EuclideanSpace ℝ (Fin n)} {lambda : ℝ}

/-- The step `p` solves `(Bᵀ B + lambda² diag dtd) p = -Bᵀ f`. -/
def IsStep (B : Matrix (Fin m) (Fin n) ℝ) (f : EuclideanSpace ℝ (Fin m))
    (dtd : EuclideanSpace ℝ (Fin n)) (lambda : ℝ) (p : EuclideanSpace ℝ (Fin n)) : Prop :=
  (Bᵀ * B + lambda ^ 2 • diagonal dtd.ofLp) *ᵥ p.ofLp = -(Bᵀ *ᵥ f.ofLp)

theorem ofLp_toEuclideanLin (B : Matrix (Fin m) (Fin n) ℝ) (x : EuclideanSpace ℝ (Fin n)) :
    (toEuclideanLin B x).ofLp = B *ᵥ x.ofLp := rfl

theorem ofLp_adjoint_toEuclideanLin (B : Matrix (Fin m) (Fin n) ℝ) (y : EuclideanSpace ℝ (Fin m)) :
    (adjoint (toEuclideanLin B) y).ofLp = Bᵀ *ᵥ y.ofLp := by
  rw [← toEuclideanLin_conjTranspose_eq_adjoint, ofLp_toEuclideanLin,
    conjTranspose_eq_transpose_of_trivial]

theorem isStep_iff : IsStep B f dtd lambda p ↔ ∀ j,
    adjoint (toEuclideanLin B) (toEuclideanLin B p) j + lambda ^ 2 * dtd j * p j =
      -adjoint (toEuclideanLin B) f j := by
  unfold IsStep
  rw [funext_iff]
  refine forall_congr' fun j => ?_
  rw [ofLp_adjoint_toEuclideanLin, ofLp_adjoint_toEuclideanLin, ofLp_toEuclideanLin, add_mulVec,
    ← mulVec_mulVec, smul_mulVec]
  simp [mulVec_diagonal, mul_assoc]

theorem dotProduct_normal (B : Matrix (Fin m) (Fin n) ℝ) (dtd : EuclideanSpace ℝ (Fin n))
    (lambda : ℝ) (x : EuclideanSpace ℝ (Fin n)) :
    x.ofLp ⬝ᵥ (Bᵀ * B + lambda ^ 2 • diagonal dtd.ofLp) *ᵥ x.ofLp =
      ∑ i, (B *ᵥ x.ofLp) i ^ 2 + lambda ^ 2 * ∑ j, dtd j * x j ^ 2 := by
  have hgram : x.ofLp ⬝ᵥ (Bᵀ * B) *ᵥ x.ofLp = ∑ i, (B *ᵥ x.ofLp) i ^ 2 := by
    rw [← mulVec_mulVec, dotProduct_mulVec, vecMul_transpose]
    simp only [dotProduct, sq]
  rw [add_mulVec, dotProduct_add, hgram, smul_mulVec, dotProduct_smul, smul_eq_mul]
  congr 2
  simp only [dotProduct, mulVec_diagonal]
  exact Finset.sum_congr rfl fun j _ => by ring

theorem damping_pos (hdamped : ∀ j, 0 < lambda ^ 2 * dtd j) (hp : p ≠ 0) :
    0 < lambda ^ 2 * ∑ j, dtd j * p j ^ 2 := by
  obtain ⟨k, hk⟩ : ∃ k, p k ≠ 0 := by
    by_contra hnone
    exact hp (PiLp.ext fun k => not_not.1 (not_exists.1 hnone k))
  rw [Finset.mul_sum]
  simp only [← mul_assoc]
  exact Finset.sum_pos' (fun j _ => mul_nonneg (hdamped j).le (sq_nonneg _))
    ⟨k, Finset.mem_univ k, mul_pos (hdamped k) (sq_pos_of_ne_zero hk)⟩

theorem IsStep.unique (hdamped : ∀ j, 0 < lambda ^ 2 * dtd j) (hp : IsStep B f dtd lambda p)
    (hq : IsStep B f dtd lambda q) : p = q := by
  by_contra hne
  have hzero : (Bᵀ * B + lambda ^ 2 • diagonal dtd.ofLp) *ᵥ (p - q).ofLp = 0 := by
    rw [WithLp.ofLp_sub, mulVec_sub, hp, hq, sub_self]
  have hform := dotProduct_normal B dtd lambda (p - q)
  rw [hzero, dotProduct_zero] at hform
  have hdamping := damping_pos hdamped (sub_ne_zero.2 hne)
  have himage : 0 ≤ ∑ i, (B *ᵥ (p - q).ofLp) i ^ 2 := Finset.sum_nonneg fun i _ => sq_nonneg _
  linarith

/-- The residuals `f` are orthogonal to all that the Jacobian `B` can do: `Bᵀ f = 0`. -/
def Stationary (B : Matrix (Fin m) (Fin n) ℝ) (f : EuclideanSpace ℝ (Fin m)) : Prop :=
  Bᵀ *ᵥ f.ofLp = 0

theorem stationary_iff : Stationary B f ↔ adjoint (toEuclideanLin B) f = 0 := by
  rw [Stationary, ← ofLp_adjoint_toEuclideanLin]
  exact WithLp.ofLp_eq_zero 2

theorem isStep_zero_iff : IsStep B f dtd lambda 0 ↔ Stationary B f := by
  simp [IsStep, Stationary, eq_comm]

theorem IsStep.eq_zero_iff (hdamped : ∀ j, 0 < lambda ^ 2 * dtd j) (hp : IsStep B f dtd lambda p) :
    p = 0 ↔ Stationary B f := by
  constructor
  · rintro rfl
    exact isStep_zero_iff.1 hp
  · intro hstationary
    exact hp.unique hdamped (isStep_zero_iff.2 hstationary)

structure DampedProblem (m n : ℕ) (J : Dense.Matrix ℝ) (f dtd : Array ℝ) (lambda : ℝ)
    (step : Array ℝ) : Prop where
  nrows : J.nrows = m
  ncols : J.ncols = n
  size_residuals : f.size = m
  size_dtd : dtd.size = n
  size_step : step.size = n
  damped : ∀ j, 0 < lambda ^ 2 * vec n dtd j

/-- A step solver that answers every damped problem with its step, over and over. -/
structure AnswersSteps {S : Type} [StepSolver S (Dense.Matrix ℝ) ℝ] (m n : ℕ)
    (Good : S → Prop) : Prop where
  fits : ∀ s, Good s → StepSolver.fits (Dense.Matrix ℝ) s m n = true
  solveStep : ∀ s J f dtd lambda step, Good s → DampedProblem m n J f dtd lambda step →
    ∃ answer inner, StepSolver.solveStep s J f dtd lambda step = .done answer ∧
      answer.inner = some inner ∧ Good answer.solver ∧ answer.step.size = n ∧
        IsStep (entries m n J) (vec m f) (vec n dtd) lambda (vec n answer.step)

end LeastSquares.Exact

import LeastSquares.Proofs.Dense.NormalEquations

/-!
# Definite normal equations

The direct step solver answers exactly where the matrix `Bᵀ B + lambda² diag dtd` is positive
definite, and else leaves the step as it was.  Its steps lower the squares of the linear model by
the squares of their image and twice the squares of their damping.
-/

namespace LeastSquares

open Matrix (diagonal)
open scoped Matrix

namespace Dense.NormalEquations

open Exact Triangle

variable {m n : ℕ} {J : Matrix ℝ} {f dtd step : Array ℝ} {lambda : ℝ}

/-- The triangle is positive definite exactly where the matrix is that it stands for. -/
theorem posDef_dampedNormal_iff (hm : J.nrows = m) (hn : J.ncols = n) (hdtd : dtd.size = n) :
    PosDef n (dampedNormal J dtd lambda) ↔
      ((entries m n J)ᵀ * entries m n J + lambda ^ 2 • diagonal (vec n dtd).ofLp).PosDef := by
  have hform {x : List ℝ} (hx : x.length = n) :
      Triangle.inner x (mul (dampedNormal J dtd lambda) x) =
        (vec n x.toArray).ofLp ⬝ᵥ ((entries m n J)ᵀ * entries m n J +
          lambda ^ 2 • diagonal (vec n dtd).ofLp) *ᵥ (vec n x.toArray).ofLp := by
    rw [inner_mul_dampedNormal hm hn hdtd hx, inner_diagonal_eq hdtd hx, dotProduct_normal,
      EuclideanSpace.norm_sq_eq]
    simp only [Real.norm_eq_abs, sq_abs]
    rfl
  constructor
  · intro h
    refine .of_dotProduct_mulVec_pos ?_ fun x hx => ?_
    · simp [Matrix.IsHermitian, Matrix.conjTranspose_eq_transpose_of_trivial]
    · have hvec : vec n (List.ofFn x).toArray = WithLp.toLp 2 x := by
        ext i
        simp
      obtain ⟨k, hk⟩ := Function.ne_iff.1 hx
      have hpos := h (List.ofFn x) (List.length_ofFn) ⟨x k, List.mem_ofFn.2 ⟨k, rfl⟩, hk⟩
      rwa [hform List.length_ofFn, hvec] at hpos
  · intro h x hx hne
    have hvec : (vec n x.toArray).ofLp ≠ 0 :=
      mt (WithLp.ofLp_eq_zero 2).1 (vec_toArray_ne_zero hx hne)
    rw [hform hx]
    exact h.dotProduct_mulVec_pos hvec

theorem solveBy_done {F : Factorization ℝ} {s : NormalEquations ℝ}
    {a : StepAnswer (NormalEquations ℝ) ℝ} (h : s.solveBy F J f dtd lambda step = .done a) :
    a.inner = some 0 ∧ a.log = [] ∨
      a.inner = none ∧ a.log = [.notPositiveDefinite lambda] ∧ a.step = step := by
  unfold solveBy at h
  split at h
  case isFalse => cases h
  case isTrue =>
    dsimp only at h
    split at h
    · cases h
    · split at h
      · unfold solveInto at h
        dsimp only at h
        split at h
        · cases h
          exact .inl ⟨rfl, rfl⟩
        · cases h
      · cases h
        exact .inr ⟨rfl, rfl, rfl⟩

theorem apply_model (hm : J.nrows = m) (hn : J.ncols = n) (hf : f.size = m)
    (hstep : step.size = n) :
    ∃ predicted, LinearOperator.apply J 1 step 1 f = .done predicted ∧
      Vec.dot predicted predicted =
        ∑ i, (vec m f i + (entries m n J *ᵥ (vec n step).ofLp) i) ^ 2 := by
  obtain ⟨r, hr, hsize, hvec⟩ := (realizes_linear hm hn).apply 1 step 1 f hstep hf
  refine ⟨r, hr, ?_⟩
  rw [dot_self_eq_sum hsize, hvec, one_smul, one_smul, add_comm]
  rfl

end Dense.NormalEquations

end LeastSquares

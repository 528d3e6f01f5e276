import Mathlib
import LeastSquares.Proofs.Lsmr.Rotation

/-!
# LSMR: the descent

The minimizers of `‖M x - b‖² + damp² ‖x - x₀‖²` are the points with a vanishing normal residual.
An iteration moves `x` along `hbar`, and the short recurrences of `h` and `hbar` carry just enough
for the normal residual to stay a multiple `zetabar` of one known vector.
-/

namespace LeastSquares.Lsmr

open LinearMap (adjoint)

variable {E F : Type} [NormedAddCommGroup E] [InnerProductSpace ℝ E] [FiniteDimensional ℝ E]
  [NormedAddCommGroup F] [InnerProductSpace ℝ F] [FiniteDimensional ℝ F]

noncomputable def objective (M : E →ₗ[ℝ] F) (damp : ℝ) (b : F) (x₀ x : E) : ℝ :=
  ‖M x - b‖ ^ 2 + damp ^ 2 * ‖x - x₀‖ ^ 2

noncomputable def normal (M : E →ₗ[ℝ] F) (damp : ℝ) : E →ₗ[ℝ] E :=
  adjoint M ∘ₗ M + damp ^ 2 • LinearMap.id

/-- Half the negative gradient of the squares. -/
noncomputable def normalResidual (M : E →ₗ[ℝ] F) (damp : ℝ) (b : F) (x₀ x : E) : E :=
  adjoint M (b - M x) - damp ^ 2 • (x - x₀)

variable {M : E →ₗ[ℝ] F} {damp : ℝ} {b : F} {x₀ x y : E}

theorem normal_apply (M : E →ₗ[ℝ] F) (damp : ℝ) (x : E) :
    normal M damp x = adjoint M (M x) + damp ^ 2 • x := rfl

theorem normalResidual_add (x d : E) :
    normalResidual M damp b x₀ (x + d) = normalResidual M damp b x₀ x - normal M damp d := by
  simp only [normalResidual, normal_apply, map_add, map_sub]
  module

theorem objective_add (x d : E) :
    objective M damp b x₀ (x + d) = objective M damp b x₀ x -
      2 * inner ℝ d (normalResidual M damp b x₀ x) + inner ℝ d (normal M damp d) := by
  have hM : M (x + d) - b = M d - (b - M x) := by rw [map_add]; abel
  have hx : x + d - x₀ = d + (x - x₀) := by abel
  have hgradient : inner ℝ d (normalResidual M damp b x₀ x) =
      inner ℝ (M d) (b - M x) - damp ^ 2 * inner ℝ d (x - x₀) := by
    rw [normalResidual, inner_sub_right, inner_smul_right, LinearMap.adjoint_inner_right]
  have hcurvature : inner ℝ d (normal M damp d) = ‖M d‖ ^ 2 + damp ^ 2 * ‖d‖ ^ 2 := by
    rw [normal_apply, inner_add_right, inner_smul_right, LinearMap.adjoint_inner_right,
      real_inner_self_eq_norm_sq, real_inner_self_eq_norm_sq]
  rw [objective, objective, hM, hx, norm_sub_sq_real, norm_add_sq_real, hgradient, hcurvature,
    norm_sub_rev (M x) b]
  ring

theorem normalResidual_eq_zero (h : objective M damp b x₀ x = 0) :
    normalResidual M damp b x₀ x = 0 := by
  obtain ⟨hresidual, hmove⟩ := (add_eq_zero_iff_of_nonneg (by positivity) (by positivity)).1 h
  have hM : b - M x = 0 := by
    rw [← norm_eq_zero, norm_sub_rev]
    exact (pow_eq_zero_iff two_ne_zero).1 hresidual
  rw [normalResidual, hM, map_zero, zero_sub, neg_eq_zero]
  rcases mul_eq_zero.1 hmove with hdamp | hnorm
  · rw [hdamp, zero_smul]
  · rw [norm_eq_zero.1 ((pow_eq_zero_iff two_ne_zero).1 hnorm), smul_zero]

theorem objective_eq (h : normalResidual M damp b x₀ x = 0) (y : E) :
    objective M damp b x₀ y =
      objective M damp b x₀ x + (‖M (y - x)‖ ^ 2 + damp ^ 2 * ‖y - x‖ ^ 2) := by
  have hcross : inner ℝ (M (y - x)) (M x - b) + damp ^ 2 * inner ℝ (y - x) (x - x₀) = 0 := by
    have hinner : inner ℝ (y - x) (normalResidual M damp b x₀ x) = 0 := by simp [h]
    rw [normalResidual, inner_sub_right, LinearMap.adjoint_inner_right, inner_smul_right,
      ← neg_sub (M x) b, inner_neg_right] at hinner
    linarith
  have hM : M y - b = M (y - x) + (M x - b) := by rw [map_sub]; abel
  have hx : y - x₀ = (y - x) + (x - x₀) := by abel
  rw [objective, objective, hM, hx, norm_add_sq_real, norm_add_sq_real]
  linear_combination 2 * hcross

theorem objective_le (h : normalResidual M damp b x₀ x = 0) (y : E) :
    objective M damp b x₀ x ≤ objective M damp b x₀ y := by
  rw [objective_eq h y]
  exact le_add_of_nonneg_right (by positivity)

/-- A point is a minimizer exactly where its normal residual vanishes. -/
theorem normalResidual_eq_zero_iff :
    normalResidual M damp b x₀ x = 0 ↔ ∀ y, objective M damp b x₀ x ≤ objective M damp b x₀ y := by
  refine ⟨objective_le, fun hmin => ?_⟩
  set g := normalResidual M damp b x₀ x with hg
  have hcurvature : 0 ≤ inner ℝ g (normal M damp g) := by
    rw [normal_apply, inner_add_right, inner_smul_right, LinearMap.adjoint_inner_right,
      real_inner_self_eq_norm_sq, real_inner_self_eq_norm_sq]
    positivity
  set c := inner ℝ g (normal M damp g)
  -- Moves along the normal residual: the curvature outweighs the slope of all of them.
  have hmove (t : ℝ) : 2 * t * ‖g‖ ^ 2 ≤ t ^ 2 * c := by
    have hle := hmin (x + t • g)
    rw [objective_add, ← hg, map_smul, inner_smul_left, inner_smul_left, inner_smul_right,
      real_inner_self_eq_norm_sq, conj_trivial] at hle
    linarith
  have hpos : 0 < c + 1 := by linarith
  have hstep := hmove (‖g‖ ^ 2 / (c + 1))
  have hfourth : (‖g‖ ^ 2) ^ 2 * (c + 2) ≤ 0 := by
    rw [div_pow, mul_assoc, div_mul_eq_mul_div, div_mul_eq_mul_div, mul_div_assoc',
      div_le_div_iff₀ hpos (by positivity)] at hstep
    refine nonpos_of_mul_nonpos_left ?_ hpos
    linear_combination hstep
  have hsq : (‖g‖ ^ 2) ^ 2 = 0 := by nlinarith [sq_nonneg (‖g‖ ^ 2)]
  simpa using hsq

theorem map_sub_eq_zero (h : normalResidual M damp b x₀ x = 0)
    (hy : objective M damp b x₀ y ≤ objective M damp b x₀ x) : M (y - x) = 0 := by
  rw [objective_eq h y] at hy
  have hsq : ‖M (y - x)‖ ^ 2 ≤ 0 := by nlinarith [mul_nonneg (sq_nonneg damp) (sq_nonneg ‖y - x‖)]
  simpa using hsq

theorem norm_sub_lt_of_minimizer (h : normalResidual M damp b x₀ x = 0)
    (hx : x - x₀ ∈ LinearMap.range (adjoint M))
    (hy : objective M damp b x₀ y ≤ objective M damp b x₀ x) (hne : y ≠ x) :
    ‖x - x₀‖ < ‖y - x₀‖ := by
  obtain ⟨w, hw⟩ := hx
  have horth : inner ℝ (y - x) (x - x₀) = 0 := by
    rw [← hw, LinearMap.adjoint_inner_right, map_sub_eq_zero h hy, inner_zero_left]
  have hsum : y - x₀ = (y - x) + (x - x₀) := by abel
  have hsq : ‖y - x₀‖ ^ 2 = ‖y - x‖ ^ 2 + ‖x - x₀‖ ^ 2 := by
    rw [hsum, norm_add_sq_real, horth]
    ring
  have hpos : 0 < ‖y - x‖ := norm_pos_iff.2 (sub_ne_zero.2 hne)
  nlinarith [norm_nonneg (x - x₀), norm_nonneg (y - x₀), sq_pos_of_pos hpos]

/-! ## The recurrences -/

variable {g : Basis ℝ} {f : Factors ℝ} {t : Turn ℝ} {u u' : F} {v v' h hbar q r : E} {alpha : ℝ}

theorem normal_h (ht : t.Rotates damp g f)
    (hh : normal M damp h = adjoint M (M v - alpha • u) + (f.alphabar ^ 2 + damp ^ 2) • v)
    (hu' : M v - alpha • u = g.beta • u')
    (hv' : g.beta • adjoint M u' = g.beta • (g.alpha • v' + g.beta • v)) :
    normal M damp h = t.rho • (t.thetanew • v' + t.rho • v) := by
  have hcross : t.rho * t.thetanew = g.beta * g.alpha := by
    rw [ht.thetanew, ← ht.s_mul]
    ring
  rw [hh, hu', map_smul, hv', smul_add t.rho, smul_smul, smul_smul, hcross, ← sq, ht.rho_sq]
  module

theorem normal_h_next (ht : t.Rotates damp g f)
    (hh : normal M damp h = t.rho • (t.thetanew • v' + t.rho • v))
    (hv' : adjoint M u' = g.alpha • v' + g.beta • v) :
    normal M damp (v' - (t.thetanew / t.rho) • h) =
      adjoint M (M v' - g.alpha • u') + (t.alphabar ^ 2 + damp ^ 2) • v' := by
  have hrho := ht.rho_pos.ne'
  have hcs : t.c ^ 2 + t.s ^ 2 = 1 := by
    have hsum : (t.c ^ 2 + t.s ^ 2) * t.rho ^ 2 = 1 * t.rho ^ 2 := by
      rw [add_mul, ht.c_sq, ← mul_pow, ht.s_mul, ht.rho_sq]
      ring
    exact mul_right_cancel₀ (pow_ne_zero 2 hrho) hsum
  rw [map_sub, map_smul, hh, normal_apply, map_sub, map_smul, hv', smul_smul,
    div_mul_cancel₀ _ hrho]
  match_scalars
  · ring
  · rw [ht.thetanew, ht.alphabar]
    linear_combination (-g.alpha ^ 2) * hcs
  · rw [ht.thetanew, ← ht.s_mul]
    ring

theorem normal_hbar (hf : f.Regular) (ht : t.Rotates damp g f)
    (hh : normal M damp h = t.rho • (t.thetanew • v' + t.rho • v))
    (hhbar : normal M damp hbar = (f.rho * f.rhobar) • q) (hv : v = f.sbar • q + f.cbar • r) :
    normal M damp (h - (t.thetabar * t.rho / (f.rho * f.rhobar)) • hbar) =
      (t.rho * t.rhobar) • (t.cbar • r + t.sbar • v') := by
  have hne : f.rho * f.rhobar ≠ 0 := (mul_pos hf.rho hf.rhobar).ne'
  rw [map_sub, map_smul, hh, hhbar, smul_smul, div_mul_cancel₀ _ hne, hv, ht.thetabar]
  match_scalars
  · linear_combination (-t.rho) * ht.sbar_mul
  · ring
  · linear_combination (-t.rho) * ht.cbar_mul

theorem normalResidual_move (ht : t.Rotates damp g f)
    (hx : normalResidual M damp b x₀ x = f.zetabar • r)
    (hhbar : normal M damp hbar = (t.rho * t.rhobar) • (t.cbar • r + t.sbar • v')) :
    normalResidual M damp b x₀ (x + (t.zeta / (t.rho * t.rhobar)) • hbar) =
      t.zetabar • (t.cbar • v' - t.sbar • r) := by
  have hne : t.rho * t.rhobar ≠ 0 := (mul_pos ht.rho_pos ht.rhobar_pos).ne'
  rw [normalResidual_add, hx, map_smul, hhbar, smul_smul, div_mul_cancel₀ _ hne, ht.zeta,
    ht.zetabar]
  match_scalars
  · linear_combination (-f.zetabar) * ht.cbar_sq
  · ring

omit [FiniteDimensional ℝ E] in
theorem rotate_back (ht : t.Rotates damp g f) (r v' : E) :
    v' = t.sbar • (t.cbar • r + t.sbar • v') + t.cbar • (t.cbar • v' - t.sbar • r) := by
  match_scalars
  · linear_combination -ht.cbar_sq
  · ring

end LeastSquares.Lsmr

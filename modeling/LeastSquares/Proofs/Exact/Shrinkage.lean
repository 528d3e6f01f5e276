import Mathlib
import LeastSquares.Proofs.Exact.Step

/-!
# More damping

Of two damped least-squares solutions of one problem, the one with more damping is the smaller, in
the norm that the damping weighs, and fits worse.  Both are strict unless the right-hand side is
orthogonal to the operator: no rank is asked for, and the smaller damping may be zero.
-/

namespace LeastSquares.Exact

open LinearMap (adjoint)

section Balance

variable {E F G : Type} [NormedAddCommGroup E] [InnerProductSpace ℝ E]
  [NormedAddCommGroup F] [InnerProductSpace ℝ F] [NormedAddCommGroup G] [InnerProductSpace ℝ G]

/-- The normal equations of `‖M x - b‖² + lambda² ‖D x‖²`, tried against every vector. -/
def Balances (M : E →ₗ[ℝ] F) (D : E →ₗ[ℝ] G) (b : F) (lambda : ℝ) (x : E) : Prop :=
  ∀ d, inner ℝ (M d) (b - M x) = lambda ^ 2 * inner ℝ (D d) (D x)

variable {M : E →ₗ[ℝ] F} {D : E →ₗ[ℝ] G} {b : F} {lambda lambda' : ℝ} {x y : E}

theorem Balances.cross (hx : Balances M D b lambda x) (hy : Balances M D b lambda' y) :
    (lambda' ^ 2 - lambda ^ 2) * inner ℝ (D (y - x)) (D y) =
      -(‖M (y - x)‖ ^ 2 + lambda ^ 2 * ‖D (y - x)‖ ^ 2) := by
  have hMx := hx (y - x)
  have hMy := hy (y - x)
  have himage : b - M y = b - M x - M (y - x) := by rw [map_sub]; abel
  have hscaled : D x = D y - D (y - x) := by rw [map_sub]; abel
  rw [himage, inner_sub_right, hMx, real_inner_self_eq_norm_sq] at hMy
  rw [hscaled, inner_sub_right, real_inner_self_eq_norm_sq] at hMy
  linarith

theorem Balances.cross_nonpos (hx : Balances M D b lambda x) (hy : Balances M D b lambda' y)
    (hlambda : 0 ≤ lambda) (hlt : lambda < lambda') : inner ℝ (D (y - x)) (D y) ≤ 0 := by
  have hsq : 0 < lambda' ^ 2 - lambda ^ 2 := sub_pos.2 (pow_lt_pow_left₀ hlt hlambda two_ne_zero)
  refine nonpos_of_mul_nonpos_right ?_ hsq
  rw [hx.cross hy]
  exact neg_nonpos.2 (by positivity)

variable [FiniteDimensional ℝ E] [FiniteDimensional ℝ F]

theorem Balances.weight_ne_zero (h : Balances M D b lambda x) (hD : Function.Injective D)
    (hne : adjoint M b ≠ 0) : ‖D x‖ ^ 2 ≠ 0 := by
  intro hweight
  have hDx : D x = 0 := norm_eq_zero.1 (pow_eq_zero_iff two_ne_zero |>.1 hweight)
  have hx : x = 0 := hD (hDx.trans (map_zero D).symm)
  have hgradient := h (adjoint M b)
  rw [hx, map_zero, map_zero, sub_zero, inner_zero_right, mul_zero,
    ← LinearMap.adjoint_inner_right, real_inner_self_eq_norm_sq] at hgradient
  exact hne (norm_eq_zero.1 (pow_eq_zero_iff two_ne_zero |>.1 hgradient))

variable (hx : Balances M D b lambda x) (hy : Balances M D b lambda' y) (hlambda : 0 ≤ lambda)
  (hlt : lambda < lambda') (hD : Function.Injective D) (hne : adjoint M b ≠ 0)

include hx hy hlambda hlt hD hne

theorem Balances.scaled_sub_ne_zero : D (y - x) ≠ 0 := by
  intro hzero
  have hyx : y = x := sub_eq_zero.1 (hD (hzero.trans (map_zero D).symm))
  -- One point with two dampings: its weight balances itself.
  have hMx := hx y
  have hMy := hy y
  rw [← hyx, real_inner_self_eq_norm_sq] at hMx
  rw [hMx, real_inner_self_eq_norm_sq] at hMy
  have hsq := (pow_lt_pow_left₀ hlt hlambda two_ne_zero).ne
  exact hsq (mul_right_cancel₀ (hy.weight_ne_zero hD hne) hMy)

theorem Balances.image_sub_ne_zero (hzero : lambda = 0) : M (y - x) ≠ 0 := by
  intro himage
  have hMx := hx y
  have hMy := hy y
  rw [map_sub, sub_eq_zero] at himage
  rw [← himage, hMy, hzero, zero_pow two_ne_zero, zero_mul, real_inner_self_eq_norm_sq] at hMx
  have hlambda' : lambda' ≠ 0 := (hlambda.trans_lt hlt).ne'
  exact hy.weight_ne_zero hD hne ((mul_eq_zero.1 hMx).resolve_left (pow_ne_zero 2 hlambda'))

theorem Balances.norm_lt : ‖D y‖ < ‖D x‖ := by
  have hcross := hx.cross_nonpos hy hlambda hlt
  have hpos := norm_pos_iff.2 (hx.scaled_sub_ne_zero hy hlambda hlt hD hne)
  have hscaled : D x = D y - D (y - x) := by rw [map_sub]; abel
  refine lt_of_pow_lt_pow_left₀ 2 (norm_nonneg _) ?_
  rw [hscaled, norm_sub_sq_real, real_inner_comm]
  nlinarith [sq_pos_of_pos hpos]

theorem Balances.residual_lt : ‖b - M x‖ < ‖b - M y‖ := by
  have hcross := hx.cross_nonpos hy hlambda hlt
  have hpos := norm_pos_iff.2 (hx.scaled_sub_ne_zero hy hlambda hlt hD hne)
  have hMx := hx (y - x)
  have himage : b - M y = b - M x - M (y - x) := by rw [map_sub]; abel
  have hscaled : D x = D y - D (y - x) := by rw [map_sub]; abel
  have hexpand : ‖b - M y‖ ^ 2 = ‖b - M x‖ ^ 2 -
      2 * (lambda ^ 2 * (inner ℝ (D (y - x)) (D y) - ‖D (y - x)‖ ^ 2)) + ‖M (y - x)‖ ^ 2 := by
    rw [himage, norm_sub_sq_real, real_inner_comm, hMx, hscaled, inner_sub_right,
      real_inner_self_eq_norm_sq]
  refine lt_of_pow_lt_pow_left₀ 2 (norm_nonneg _) ?_
  rw [hexpand]
  rcases hlambda.eq_or_lt with hzero | hdamped
  · have hmoved := norm_pos_iff.2 (hx.image_sub_ne_zero hy hlambda hlt hD hne hzero.symm)
    rw [← hzero]
    nlinarith [sq_pos_of_pos hmoved]
  · nlinarith [mul_pos (sq_pos_of_pos hdamped) (sq_pos_of_pos hpos), sq_nonneg ‖M (y - x)‖,
      mul_nonneg (sq_nonneg lambda) (neg_nonneg.2 hcross)]

end Balance

/-! ## Steps -/

variable {m n : ℕ} {B : Matrix (Fin m) (Fin n) ℝ} {f : EuclideanSpace ℝ (Fin m)}
  {dtd p q : EuclideanSpace ℝ (Fin n)} {lambda : ℝ}

noncomputable def weighted (dtd : EuclideanSpace ℝ (Fin n)) :
    EuclideanSpace ℝ (Fin n) →ₗ[ℝ] EuclideanSpace ℝ (Fin n) where
  toFun p := WithLp.toLp _ fun j => Real.sqrt (dtd j) * p j
  map_add' p q := by
    ext j
    simp [mul_add]
  map_smul' c p := by
    ext j
    simp [mul_left_comm]

theorem inner_weighted (hdtd : ∀ j, 0 ≤ dtd j) :
    inner ℝ (weighted dtd q) (weighted dtd p) = ∑ j, dtd j * p j * q j := by
  refine Finset.sum_congr rfl fun j _ => ?_
  change Real.sqrt (dtd j) * p j * (Real.sqrt (dtd j) * q j) = _
  linear_combination (p j * q j) * Real.mul_self_sqrt (hdtd j)

theorem norm_sq_weighted (hdtd : ∀ j, 0 ≤ dtd j) :
    ‖weighted dtd p‖ ^ 2 = ∑ j, dtd j * p j ^ 2 := by
  rw [← real_inner_self_eq_norm_sq, inner_weighted hdtd]
  exact Finset.sum_congr rfl fun j _ => by ring

theorem weighted_injective (hdtd : ∀ j, 0 < dtd j) : Function.Injective (weighted dtd) := by
  intro p q h
  ext j
  have hentry : Real.sqrt (dtd j) * p j = Real.sqrt (dtd j) * q j :=
    congrArg (fun r : EuclideanSpace ℝ (Fin n) => r j) h
  exact mul_left_cancel₀ (Real.sqrt_pos.2 (hdtd j)).ne' hentry

theorem IsStep.balances (h : IsStep B f dtd lambda p) (hdtd : ∀ j, 0 ≤ dtd j) :
    Balances (Matrix.toEuclideanLin B) (weighted dtd) (-f) lambda p := by
  intro d
  rw [← LinearMap.adjoint_inner_right, inner_weighted hdtd, map_sub, map_neg, Finset.mul_sum]
  refine Finset.sum_congr rfl fun j _ => ?_
  have hentry := isStep_iff.1 h j
  change (-adjoint (Matrix.toEuclideanLin B) f j -
    adjoint (Matrix.toEuclideanLin B) (Matrix.toEuclideanLin B p) j) * d j = _
  linear_combination (-d j) * hentry

end LeastSquares.Exact
